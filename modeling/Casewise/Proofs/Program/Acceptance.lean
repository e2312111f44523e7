import Mathlib.Data.List.Induction
import Casewise.Proofs.Program.Surroundings
import Casewise.Proofs.Program.Table
import Casewise.Proofs.Program.Unambiguous

/-! What the reader accepts: the token lists that can be derived and define no name twice. The program
then holds the trees of the innermost derivation, and everything else is refused. -/
namespace Casewise

/-- The program was refused for what it says. -/
def Refusal.IsGrammatical (x : Refusal) : Prop :=
  ∃ e : Error, x.fault = .error e ∧ e.cause.family? = some .grammatical

namespace Reader

variable {defined : List Definition} {k : Context} {e : Expr} {t : Token} {r s : Reader}

/-- What a token may lead to: the end token to the end, any other on, and each to an error of the
grammar. -/
def Follows (t : Token) : Except Refusal Reader → Prop
  | .ok s => t.kind = .eof ↔ s.phase = .done
  | .error x => x.IsGrammatical

theorem follows_error (t : Token) (defined : List Definition) (expected : String) :
    Follows t (.error ⟨.of (.unexpectedToken expected t.describe) (some t.span), defined⟩) :=
  ⟨_, rfl, rfl⟩

theorem follows_ok (ht : t.kind ≠ .eof) (hs : s.phase ≠ .done) : Follows t (.ok s) :=
  ⟨fun h => absurd h ht, fun h => absurd h hs⟩

theorem follows_symbol {kind : Token.Kind} {text : String} (ht : t.is kind text) (hk : kind ≠ .eof)
    (hs : s.phase ≠ .done) : Follows t (.ok s) :=
  follows_ok (fun h => hk ((Token.is_iff.mp ht).1.symm.trans h)) hs

theorem follows_kind {kind : Token.Kind} (ht : t.kind = kind) (hk : kind ≠ .eof)
    (hs : s.phase ≠ .done) : Follows t (.ok s) :=
  follows_ok (fun h => hk (ht.symm.trans h)) hs

theorem follows_item (defined : List Definition) (t : Token) : Follows t (item defined t) := by
  unfold item
  split
  next ht => exact ⟨fun _ => rfl, fun _ => ht⟩
  split
  next ht => exact follows_symbol ht (by decide) (by simp)
  next => exact follows_error t defined _

theorem follows_define (defined : List Definition) (f : Definition) (t : Token) :
    Follows t (define defined f t) := by
  unfold define
  split
  next => exact ⟨_, rfl, rfl⟩
  next => exact follows_item _ t

theorem follows_close (defined : List Definition) (k : Context) (e : Expr) (t : Token) :
    Follows t (close defined k e t) := by
  induction k generalizing e with
  | body start name param => exact follows_define _ _ t
  | sum l op outer ih | product l op outer ih => exact ih _
  | group outer _ | argument f start outer _ | scrutinee start outer _ =>
    unfold close
    split
    next ht => exact follows_symbol ht (by decide) (by simp)
    next => exact follows_error t defined _
  | branch start s cs p outer ih =>
    unfold close
    dsimp only
    split
    next ht => exact follows_symbol ht (by decide) (by simp)
    next => exact ih _

theorem follows_settle (defined : List Definition) (k : Context) (e : Expr) (t : Token) :
    Follows t (settle defined k e t) := by
  unfold settle
  dsimp only
  split
  next ht => exact follows_symbol ht (by decide) (by simp)
  split
  next ht => exact follows_symbol ht (by decide) (by simp)
  split
  next ht => exact follows_symbol ht (by decide) (by simp)
  next => exact follows_close _ _ _ t

theorem follows_operand (defined : List Definition) (k : Context) (t : Token) :
    Follows t (operand defined k t) := by
  unfold operand
  split
  next ht => exact follows_kind ht (by decide) (by simp)
  split
  next ht => exact follows_kind ht (by decide) (by simp)
  split
  next ht => exact follows_symbol ht (by decide) (by simp)
  next => exact follows_error t defined _

theorem follows_head (defined : List Definition) (k : Context) (name : Name) (span : Span) (t : Token) :
    Follows t (head defined k name span t) := by
  unfold head
  dsimp only
  split
  next ht => exact follows_kind ht (by decide) (by simp)
  split
  next ht => exact follows_kind ht (by decide) (by simp)
  split
  next ht => exact follows_symbol ht (by decide) (by simp)
  next => exact follows_settle _ _ _ t

theorem follows_pattern (defined : List Definition) (start : Span) (s : Expr)
    (cs : List (Clause Expr)) (k : Context) (t : Token) :
    Follows t (pattern defined start s cs k t) := by
  unfold pattern
  split
  next ht => exact follows_kind ht (by decide) (by simp)
  split
  next ht => exact follows_symbol ht (by decide) (by simp)
  next => exact follows_error t defined _

theorem follows_step (hr : r.phase ≠ .done) (t : Token) : Follows t (r.step t) := by
  obtain ⟨defined, phase⟩ := r
  cases phase with
  | item => exact follows_item defined t
  | name start | param start f =>
    simp only [step]
    split
    next ht => exact follows_kind ht (by decide) (by simp)
    next => exact follows_error t defined _
  | equals start f x | arrow start s cs p k =>
    simp only [step]
    split
    next ht => exact follows_symbol ht (by decide) (by simp)
    next => exact follows_error t defined _
  | expression k =>
    simp only [step, expression]
    split
    next ht => exact follows_symbol ht (by decide) (by simp)
    next => exact follows_operand defined k t
  | operand k => exact follows_operand defined k t
  | head k name span => exact follows_head defined k name span t
  | after k e => exact follows_settle defined k e t
  | first start s i k =>
    simp only [step]
    split
    next => exact ⟨_, rfl, rfl⟩
    next => exact follows_pattern defined start s [] k t
  | pattern start s cs k => exact follows_pattern defined start s cs k t
  | done => exact absurd rfl hr

/-- Reading any tokens but the end token either goes on, having read them, or is refused. -/
theorem take_follows {read ts : List Token} (hr : r.HasRead read) (hd : r.phase ≠ .done)
    (hts : ∀ t ∈ ts, t.kind ≠ .eof) :
    (∃ s, r.take ts = .ok s ∧ s.HasRead (read ++ ts) ∧ s.phase ≠ .done) ∨
      ∃ x, r.take ts = .error x ∧ x.IsGrammatical := by
  induction ts generalizing r read with
  | nil => exact Or.inl ⟨r, rfl, by simpa using hr, hd⟩
  | cons t ts ih =>
    have hf := follows_step hd t
    cases hs : r.step t with
    | error x =>
      rw [hs] at hf
      exact Or.inr ⟨x, take_cons_error hs _, hf⟩
    | ok s =>
      rw [hs] at hf
      have hnext : s.phase ≠ .done := fun h => hts t (by simp) (hf.mpr h)
      rw [take_cons hs]
      simpa using ih (hasRead_step hr hd hs) hnext fun u hu => hts u (by simp [hu])

/-- Reading to the end gives definitions that can be derived, of distinct names, or is refused. -/
theorem take_start {ts : List Token} {last : Token} (hts : ∀ t ∈ ts, t.kind ≠ .eof)
    (hlast : last.kind = .eof) :
    (∃ s, start.take (ts ++ [last]) = .ok s ∧ Derives .innermost (.program s.defined) ts ∧
      (s.defined.map Definition.name).Nodup) ∨
      ∃ x, start.take (ts ++ [last]) = .error x ∧ x.IsGrammatical := by
  rcases take_follows hasRead_start (by simp [start]) hts with ⟨r, hr, hread, hd⟩ | ⟨x, hx, hg⟩
  · rw [take_append hr]
    have hf := follows_step hd last
    cases hs : r.step last with
    | error x =>
      rw [hs] at hf
      exact Or.inr ⟨x, take_cons_error hs _, hf⟩
    | ok s =>
      rw [hs] at hf
      obtain ⟨hn, us, vs, heq, hder, hc⟩ := hasRead_step hread hd hs
      rw [hf.mp hlast] at hc
      cases hc with
      | done _ =>
        obtain ⟨rfl, _⟩ := List.append_inj' heq rfl
        exact Or.inl ⟨s, take_one hs, hder, hn⟩
  · exact Or.inr ⟨x, take_append_error hx _, hg⟩

end Reader

namespace Program

open Token.Stream

variable {ts : List Token} {last : Token} {fs before after : List Definition} {f : Definition}

theorem ofTokens_innermost (hts : ∀ t ∈ ts, t.kind ≠ .eof) (hlast : last.kind = .eof)
    (h : Derives .innermost (.program fs) ts) :
    ofTokens (.ofList (ts ++ [last])) = (Reader.defineAll [] fs).map ofDefinitions := by
  rw [ofList_eq_closed hts hlast, ofTokens_closed, Reader.start, Reader.take_program h hlast]
  cases Reader.defineAll [] fs <;> rfl

theorem ofTokens_of_nodup (hts : ∀ t ∈ ts, t.kind ≠ .eof) (hlast : last.kind = .eof)
    (h : Derives .innermost (.program fs) ts) (hn : (fs.map Definition.name).Nodup) :
    ofTokens (.ofList (ts ++ [last])) = .ok (ofDefinitions fs) := by
  rw [ofTokens_innermost hts hlast h, Reader.defineAll_eq_ok (by simpa using hn)]
  rfl

theorem ofTokens_of_repeated (hts : ∀ t ∈ ts, t.kind ≠ .eof) (hlast : last.kind = .eof)
    (h : Derives .innermost (.program (before ++ f :: after)) ts)
    (hn : (before.map Definition.name).Nodup) (hf : f.name ∈ before.map Definition.name) :
    ofTokens (.ofList (ts ++ [last])) = .error ⟨.of (.duplicateFunction f.name) f.span, before⟩ := by
  rw [ofTokens_innermost hts hlast h,
    Reader.defineAll_eq_error (by simpa using hn) (by simpa using hf)]
  rfl

theorem ofTokens_sound (hts : ∀ t ∈ ts, t.kind ≠ .eof) (hlast : last.kind = .eof) :
    (∃ fs, ofTokens (.ofList (ts ++ [last])) = .ok (ofDefinitions fs) ∧
      Derives .innermost (.program fs) ts ∧ (fs.map Definition.name).Nodup) ∨
    ∃ x, ofTokens (.ofList (ts ++ [last])) = .error x ∧ x.IsGrammatical := by
  rw [ofList_eq_closed hts hlast, ofTokens_closed]
  rcases Reader.take_start hts hlast with ⟨s, hs, hd, hn⟩ | ⟨x, hx, hg⟩
  · exact Or.inl ⟨s.defined, by rw [hs]; rfl, hd, hn⟩
  · exact Or.inr ⟨x, by rw [hx]; rfl, hg⟩

/-- If names repeat, one definition is the first whose name is taken. -/
theorem exists_repeated (h : ¬ (fs.map Definition.name).Nodup) :
    ∃ before f after, fs = before ++ f :: after ∧ (before.map Definition.name).Nodup ∧
      f.name ∈ before.map Definition.name := by
  induction fs using List.reverseRecOn with
  | nil => simp at h
  | append_singleton fs g ih =>
    by_cases hfs : (fs.map Definition.name).Nodup
    · refine ⟨fs, g, [], rfl, hfs, ?_⟩
      rw [List.map_append, List.nodup_append] at h
      simpa [hfs] using h
    · obtain ⟨before, f, after, rfl, hn, hf⟩ := ih hfs
      exact ⟨before, f, after ++ [g], by simp, hn, hf⟩

/-- Tokens are a program exactly if they can be derived with distinct names. The program holds, in
order, the trees of the only innermost derivation. If a name repeats, the first definition whose name
is taken is to blame, and what cannot be derived breaks the grammar somewhere. -/
theorem ofTokens_accepts (hts : ∀ t ∈ ts, t.kind ≠ .eof) (hlast : last.kind = .eof) :
    ((∃ p, ofTokens (.ofList (ts ++ [last])) = .ok p) ↔
      ∃ fs, Derives .any (.program fs) ts ∧ (fs.map Definition.name).Nodup) ∧
    (∀ fs, Derives .any (.program fs) ts → ∃! gs, Derives .innermost (.program gs) ts) ∧
    (∀ gs, Derives .innermost (.program gs) ts → (gs.map Definition.name).Nodup →
      ∃ p, ofTokens (.ofList (ts ++ [last])) = .ok p ∧ p.definitions = gs ∧
        p.keys = gs.map Definition.name) ∧
    (∀ gs, Derives .innermost (.program gs) ts → ¬ (gs.map Definition.name).Nodup →
      ∃ before f after, gs = before ++ f :: after ∧ (before.map Definition.name).Nodup ∧
        f.name ∈ before.map Definition.name ∧
        ofTokens (.ofList (ts ++ [last])) =
          .error ⟨.of (.duplicateFunction f.name) f.span, before⟩) ∧
    ((¬ ∃ fs, Derives .any (.program fs) ts) →
      ∃ x, ofTokens (.ofList (ts ++ [last])) = .error x ∧ x.IsGrammatical) := by
  refine ⟨⟨?_, ?_⟩, fun _ h => h.existsUnique_innermost, fun gs h hn => ?_, fun gs h hn => ?_,
    fun h => ?_⟩
  · rintro ⟨p, hp⟩
    rcases ofTokens_sound hts hlast with ⟨fs, _, hd, hn⟩ | ⟨x, hx, _⟩
    · exact ⟨fs, hd.toAny, hn⟩
    · simp [hp] at hx
  · rintro ⟨fs, hd, hn⟩
    obtain ⟨gs, hnames, hgs⟩ := hd.exists_innermost
    exact ⟨_, ofTokens_of_nodup hts hlast hgs (hnames ▸ hn)⟩
  · exact ⟨_, ofTokens_of_nodup hts hlast h hn, definitions_ofDefinitions hn, keys_ofDefinitions hn⟩
  · obtain ⟨before, f, after, rfl, hbefore, hf⟩ := exists_repeated hn
    exact ⟨before, f, after, rfl, hbefore, hf, ofTokens_of_repeated hts hlast h hbefore hf⟩
  · rcases ofTokens_sound hts hlast with ⟨fs, _, hd, _⟩ | hx
    · exact absurd ⟨fs, hd.toAny⟩ h
    · exact hx

/-- The bar behind a nested case goes on with the inner one: `fun f x = case x in 0 => case x in _ =>
x | 1 => x` holds an outer case of one clause. -/
theorem ofTokens_accepts_nested :
    let span := Span.between Token.anonymous .start .start
    let name (s : String) : Token := ⟨.identifier, .text s, span⟩
    let word (s : String) : Token := ⟨.keyword, .text s, span⟩
    let sign (s : String) : Token := ⟨.punctuation, .text s, span⟩
    let number (n : Int) : Token := ⟨.integer, .int n, span⟩
    let x : Expr := .var (.text "x") (some span)
    let inner : Expr := .case x [⟨.wildcard (some span), x, some span⟩,
      ⟨.literal (.int 1) (some span), x, some span⟩] (some span)
    let outer : Expr := .case x [⟨.literal (.int 0) (some span), inner, some span⟩] (some span)
    ∃ p, ofTokens (.ofList ([word "fun", name "f", name "x", sign "=", word "case", name "x", word "in",
        number 0, sign "=>", word "case", name "x", word "in", sign "_", sign "=>", name "x", sign "|",
        number 1, sign "=>", name "x"] ++ [Token.endOf span])) = .ok p ∧
      p.definitions = [⟨.text "f", .text "x", outer, some span⟩] ∧ p.keys = [.text "f"] := by
  intro span name word sign number x inner outer
  have hx : Derives .innermost (.expression x false) [name "x"] :=
    .plain (.term (.factor (.operand (.word (t := name "x") rfl))))
  have hfirst : Derives .innermost (.clause ⟨.wildcard (some span), x, some span⟩ false)
      [sign "_", sign "=>", name "x"] :=
    .clause (a := sign "=>") (.wildcard (t := sign "_") (by decide)) (by decide) hx
  have hsecond : Derives .innermost (.clause ⟨.literal (.int 1) (some span), x, some span⟩ false)
      [number 1, sign "=>", name "x"] :=
    .clause (a := sign "=>") (.literal (t := number 1) rfl) (by decide) hx
  have hinner : Derives .innermost (.expression inner true) [word "case", name "x", word "in",
      sign "_", sign "=>", name "x", sign "|", number 1, sign "=>", name "x"] :=
    .case (t := word "case") (i := word "in") (by decide) hx (by decide)
      (.bar (b := sign "|") hfirst (by decide) (.last hsecond) fun _ => rfl)
  have hclause : Derives .innermost (.clause ⟨.literal (.int 0) (some span), inner, some span⟩ true)
      ([number 0] ++ sign "=>" :: _) :=
    .clause (a := sign "=>") (.literal (t := number 0) rfl) (by decide) hinner
  have houter : Derives .innermost (.expression outer true)
      (word "case" :: ([name "x"] ++ word "in" :: _)) :=
    .case (t := word "case") (i := word "in") (by decide) hx (by decide) (.last hclause)
  have hbody : Derives .innermost (.definition ⟨.text "f", .text "x", outer, some span⟩)
      (word "fun" :: name "f" :: name "x" :: sign "=" :: _) :=
    .definition (k := word "fun") (f := name "f") (x := name "x") (q := sign "=") (by decide) rfl rfl
      (by decide) houter
  exact (ofTokens_accepts (by decide) rfl).2.2.1 _ (.item hbody .empty) (by decide)

end Program

end Casewise
