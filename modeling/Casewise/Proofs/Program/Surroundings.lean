import Casewise.Proofs.Program.Reading

/-!
What a reader has read. Its definitions are derived, and its phase tells what the tokens behind them
have been read as: the surroundings of a hole, and what is complete in front of the next token. Every
token taken keeps this so, and a token that is not taken is refused with an error of the grammar.
-/
namespace Casewise

namespace Derives

theorem snoc {bars : Bars} {fs : List Definition} {f : Definition} {ts us : List Token}
    (h : Derives bars (.program fs) ts) (hf : Derives bars (.definition f) us) :
    Derives bars (.program (fs ++ [f])) (ts ++ us) := by
  induction fs generalizing ts with
  | nil =>
    cases h
    have := Derives.item hf .empty
    rwa [List.append_nil] at this
  | cons g fs ih =>
    cases h with
    | item hg hfs =>
      rw [List.append_assoc]
      exact .item hg (ih hfs)

end Derives

/-- The beginning of a definition, up to its body. -/
inductive Heading : Span → Name → Name → List Token → Prop
  | mk {k f x q : Token} : k.is .keyword "fun" → f.kind = .identifier → x.kind = .identifier →
    q.is .punctuation "=" → Heading k.span f.value x.value [k, f, x, q]

/-- The beginning of a case, up to its clauses. -/
inductive CaseHead : Span → Expr → List Token → Prop
  | mk {t i : Token} {s : Expr} {unclosed : Bool} {ts : List Token} : t.is .keyword "case" →
    Derives .innermost (.expression s unclosed) ts → i.is .keyword "in" →
    CaseHead t.span s (t :: (ts ++ [i]))

/-- Clauses with a bar behind each of them. -/
inductive Earlier : List (Clause Expr) → List Token → Prop
  | none : Earlier [] []
  | bar {cs : List (Clause Expr)} {c : Clause Expr} {b : Token} {ts us : List Token} : Earlier cs ts →
    Derives .innermost (.clause c false) us → b.is .punctuation "|" →
    Earlier (cs ++ [c]) (ts ++ (us ++ [b]))

theorem Earlier.derives {cs ds : List (Clause Expr)} {ts us : List Token} (h : Earlier cs ts)
    (hd : Derives .innermost (.clauses ds) us) :
    Derives .innermost (.clauses (cs ++ ds)) (ts ++ us) := by
  induction h generalizing ds us with
  | none => exact hd
  | @bar cs c b ts vs _ hc hb ih =>
    have := ih (.bar hc hb hd fun _ => rfl)
    simpa using this

/-- The tokens in front of the hole of a context. -/
inductive Surrounds : Context → List Token → Prop
  | body {start : Span} {name param : Name} {ts : List Token} : Heading start name param ts →
    Surrounds (.body start name param) ts
  | sum {k : Context} {l : Expr} {operator : String} {o : Token} {ts us : List Token} :
    Surrounds k ts → k.isWhole → Derives .innermost (.sum l) us → operator = "+" ∨ operator = "-" →
    o.is .operator operator → Surrounds (.sum l operator k) (ts ++ (us ++ [o]))
  | product {k : Context} {l : Expr} {o : Token} {ts us : List Token} : Surrounds k ts →
    k.isProduct = false → Derives .innermost (.product l) us → o.is .operator "*" →
    Surrounds (.product l "*" k) (ts ++ (us ++ [o]))
  | group {k : Context} {l : Token} {ts : List Token} : Surrounds k ts → l.is .punctuation "(" →
    Surrounds (.group k) (ts ++ [l])
  | argument {k : Context} {f l : Token} {ts : List Token} : Surrounds k ts → f.kind = .identifier →
    l.is .punctuation "(" → Surrounds (.argument f.value f.span k) (ts ++ [f, l])
  | scrutinee {k : Context} {t : Token} {ts : List Token} : Surrounds k ts → k.isWhole →
    t.is .keyword "case" → Surrounds (.scrutinee t.span k) (ts ++ [t])
  | branch {k : Context} {start : Span} {s : Expr} {cs : List (Clause Expr)} {p : Pattern} {a : Token}
    {ts us vs ws : List Token} : Surrounds k ts → k.isWhole → CaseHead start s us → Earlier cs vs →
    Derives .innermost (.pattern p) ws → a.is .punctuation "=>" →
    Surrounds (.branch start s cs p k) (ts ++ (us ++ (vs ++ (ws ++ [a]))))

/-- The tokens of the definition that is being read, or the end token behind the last one. -/
inductive Phase.Covers : Phase → List Token → Prop
  | item : Covers .item []
  | name {k : Token} : k.is .keyword "fun" → Covers (.name k.span) [k]
  | param {k f : Token} : k.is .keyword "fun" → f.kind = .identifier →
    Covers (.param k.span f.value) [k, f]
  | equals {k f x : Token} : k.is .keyword "fun" → f.kind = .identifier → x.kind = .identifier →
    Covers (.equals k.span f.value x.value) [k, f, x]
  | expression {k : Context} {ts : List Token} : Surrounds k ts → k.isWhole → Covers (.expression k) ts
  | operand {k : Context} {ts : List Token} : Surrounds k ts → Covers (.operand k) ts
  | head {k : Context} {t : Token} {ts : List Token} : Surrounds k ts → t.kind = .identifier →
    Covers (.head k t.value t.span) (ts ++ [t])
  | after {k : Context} {e : Expr} {ts us : List Token} : Surrounds k ts →
    Derives .innermost (.application e) us → Covers (.after k e) (ts ++ us)
  | first {k : Context} {start inWord : Span} {s : Expr} {ts us : List Token} : Surrounds k ts →
    k.isWhole → CaseHead start s us → us.getLast?.map Token.span = some inWord →
    Covers (.first start s inWord k) (ts ++ us)
  | pattern {k : Context} {start : Span} {s : Expr} {cs : List (Clause Expr)} {ts us vs : List Token} :
    Surrounds k ts → k.isWhole → CaseHead start s us → Earlier cs vs →
    Covers (.pattern start s cs k) (ts ++ (us ++ vs))
  | arrow {k : Context} {start : Span} {s : Expr} {cs : List (Clause Expr)} {p : Pattern}
    {ts us vs ws : List Token} : Surrounds k ts → k.isWhole → CaseHead start s us → Earlier cs vs →
    Derives .innermost (.pattern p) ws → Covers (.arrow start s cs p k) (ts ++ (us ++ (vs ++ ws)))
  | done {last : Token} : last.kind = .eof → Covers .done [last]

structure Reader.HasRead (r : Reader) (ts : List Token) : Prop where
  nodup : (r.defined.map Definition.name).Nodup
  covers : ∃ us vs, ts = us ++ vs ∧ Derives .innermost (.program r.defined) us ∧ r.phase.Covers vs

namespace Reader

variable {defined : List Definition} {done ts us : List Token} {k : Context} {e : Expr} {t : Token}
  {r : Reader}

theorem hasRead_item (hn : (defined.map Definition.name).Nodup)
    (hd : Derives .innermost (.program defined) done) (h : item defined t = .ok r) :
    r.HasRead (done ++ [t]) := by
  unfold item at h
  split at h
  next ht => cases h; exact ⟨hn, done, [t], rfl, hd, .done ht⟩
  split at h
  next ht => cases h; exact ⟨hn, done, [t], rfl, hd, .name ht⟩
  next => cases h

theorem hasRead_define {f : Definition} (hn : (defined.map Definition.name).Nodup)
    (hd : Derives .innermost (.program defined) done) (hf : Derives .innermost (.definition f) ts)
    (h : define defined f t = .ok r) : r.HasRead (done ++ ts ++ [t]) := by
  unfold define at h
  split at h
  next => cases h
  next hm =>
    refine hasRead_item ?_ (hd.snoc hf) h
    rw [List.map_append, List.nodup_append]
    refine ⟨hn, by simp, fun a ha b hb => ?_⟩
    rintro rfl
    obtain rfl : a = f.name := by simpa using hb
    exact hm ha

/-- Closing an expression leaves the reader behind what the expression completes. -/
theorem hasRead_close {unclosed : Bool} (hn : (defined.map Definition.name).Nodup)
    (hd : Derives .innermost (.program defined) done) (hk : Surrounds k ts) (hw : k.isWhole)
    (he : Derives .innermost (.expression e unclosed) us)
    (hbar : t.is .punctuation "|" → unclosed = false) (h : close defined k e t = .ok r) :
    r.HasRead (done ++ (ts ++ us) ++ [t]) := by
  induction hk generalizing e us unclosed with
  | body hh =>
    cases hh with
    | mk hk hf hx hq => exact hasRead_define hn hd (.definition hk hf hx hq he) h
  | sum _ _ _ _ _ _ => cases hw
  | product _ _ _ _ _ => cases hw
  | @group k l ts hk hl _ =>
    unfold close at h
    split at h
    next ht =>
      cases h
      exact ⟨hn, done, _, by simp, hd, .after hk (.operand (.group hl he ht))⟩
    next => cases h
  | @argument k f l ts hk hf hl _ =>
    unfold close at h
    split at h
    next ht =>
      cases h
      exact ⟨hn, done, _, by simp, hd, .after hk (.call hf (.group hl he ht))⟩
    next => cases h
  | @scrutinee k c ts hk hwhole hc _ =>
    unfold close at h
    split at h
    next ht =>
      cases h
      have hin : (c :: (us ++ [t])).getLast?.map Token.span = some t.span := by
        rw [← List.cons_append, List.getLast?_concat]
        rfl
      exact ⟨hn, done, _, by simp, hd, .first hk hwhole (.mk hc he ht) hin⟩
    next => cases h
  | @branch k start s cs p a ts vs ws xs hk hwhole hs hcs hp ha ih =>
    unfold close at h
    dsimp only at h
    have hc : Derives .innermost (.clause (Context.clause p e) unclosed) (xs ++ a :: us) :=
      .clause hp ha he
    split at h
    next ht =>
      cases h
      rw [hbar ht] at hc
      exact ⟨hn, done, _, by simp, hd, .pattern hk hwhole hs (.bar hcs hc ht)⟩
    next ht =>
      -- without a bar the case is complete, and closes in turn what is around it
      have hcs' := hcs.derives (.last hc)
      cases hs with
      | mk hcase hs hi =>
        have := ih hwhole (.case hcase hs hi hcs') (fun h => absurd h ht)
          (by simpa [Context.complete] using h)
        simpa using this

theorem closeProducts_surrounds (hk : Surrounds k ts) (he : Derives .innermost (.application e) us) :
    ∃ k' e' ts' us', k.closeProducts e = (k', e') ∧ Surrounds k' ts' ∧ k'.isProduct = false ∧
      Derives .innermost (.product e') us' ∧ ts' ++ us' = ts ++ us := by
  cases hp : k.isProduct with
  | false => exact ⟨k, e, ts, us, Context.closeProducts_eq hp e, hk, hp, .factor he, rfl⟩
  | true =>
    cases hk with
    | @product k l o ts vs hk hp' hl ho =>
      exact ⟨k, _, ts, _, Context.closeProducts_eq hp' _, hk, hp', .product hl ho he, by simp⟩
    | _ => cases hp

theorem closeSums_surrounds (hk : Surrounds k ts) (hp : k.isProduct = false)
    (he : Derives .innermost (.product e) us) :
    ∃ k' e' ts' us', k.closeSums e = (k', e') ∧ Surrounds k' ts' ∧ k'.isWhole ∧
      Derives .innermost (.sum e') us' ∧ ts' ++ us' = ts ++ us := by
  cases hw : k.isWhole with
  | true => exact ⟨k, e, ts, us, Context.closeSums_eq hw e, hk, hw, .term he, rfl⟩
  | false =>
    cases hk with
    | @sum k l op o ts vs hk hw' hl hop ho =>
      exact ⟨k, _, ts, _, Context.closeSums_eq hw' _, hk, hw', .sum hl hop ho he, by simp⟩
    | product _ _ _ _ => cases hp
    | _ => cases hw

theorem hasRead_settle (hn : (defined.map Definition.name).Nodup)
    (hd : Derives .innermost (.program defined) done) (hk : Surrounds k ts)
    (he : Derives .innermost (.application e) us) (h : settle defined k e t = .ok r) :
    r.HasRead (done ++ (ts ++ us) ++ [t]) := by
  obtain ⟨inner, factor, ts₁, us₁, hprod, hk₁, hp₁, he₁, heq₁⟩ := closeProducts_surrounds hk he
  obtain ⟨outer, term, ts₂, us₂, hsum, hk₂, hw₂, he₂, heq₂⟩ := closeSums_surrounds hk₁ hp₁ he₁
  simp only [settle, hprod, hsum] at h
  split at h
  next ht =>
    cases h
    exact ⟨hn, done, _, by simp [← heq₁], hd, .operand (.product hk₁ hp₁ he₁ ht)⟩
  split at h
  next ht =>
    cases h
    exact ⟨hn, done, _, by simp [← heq₁, ← heq₂], hd,
      .operand (.sum hk₂ hw₂ he₂ (Or.inl rfl) ht)⟩
  split at h
  next ht =>
    cases h
    exact ⟨hn, done, _, by simp [← heq₁, ← heq₂], hd,
      .operand (.sum hk₂ hw₂ he₂ (Or.inr rfl) ht)⟩
  next =>
    rw [← heq₁, ← heq₂]
    exact hasRead_close hn hd hk₂ hw₂ (.plain he₂) (fun _ => rfl) h

theorem hasRead_operand (hn : (defined.map Definition.name).Nodup)
    (hd : Derives .innermost (.program defined) done) (hk : Surrounds k ts)
    (h : operand defined k t = .ok r) : r.HasRead (done ++ ts ++ [t]) := by
  unfold operand at h
  split at h
  next ht => cases h; exact ⟨hn, done, _, by simp, hd, .head hk ht⟩
  split at h
  next ht => cases h; exact ⟨hn, done, _, by simp, hd, .after hk (.operand (.number ht))⟩
  split at h
  next ht => cases h; exact ⟨hn, done, _, by simp, hd, .expression (.group hk ht) rfl⟩
  next => cases h

theorem hasRead_pattern {start : Span} {s : Expr} {cs : List (Clause Expr)} {vs : List Token}
    (hn : (defined.map Definition.name).Nodup) (hd : Derives .innermost (.program defined) done)
    (hk : Surrounds k ts) (hw : k.isWhole) (hs : CaseHead start s us) (hcs : Earlier cs vs)
    (h : pattern defined start s cs k t = .ok r) :
    r.HasRead (done ++ (ts ++ (us ++ vs)) ++ [t]) := by
  unfold pattern at h
  split at h
  next ht => cases h; exact ⟨hn, done, _, by simp, hd, .arrow hk hw hs hcs (.literal ht)⟩
  split at h
  next ht => cases h; exact ⟨hn, done, _, by simp, hd, .arrow hk hw hs hcs (.wildcard ht)⟩
  next => cases h

theorem hasRead_head {f : Token} (hn : (defined.map Definition.name).Nodup)
    (hd : Derives .innermost (.program defined) done) (hk : Surrounds k ts)
    (hf : f.kind = .identifier) (h : head defined k f.value f.span t = .ok r) :
    r.HasRead (done ++ (ts ++ [f]) ++ [t]) := by
  unfold head at h
  dsimp only at h
  split at h
  next ht => cases h; exact ⟨hn, done, _, by simp, hd, .after hk (.call hf (.number ht))⟩
  split at h
  next ht => cases h; exact ⟨hn, done, _, by simp, hd, .after hk (.call hf (.word ht))⟩
  split at h
  next ht => cases h; exact ⟨hn, done, _, by simp, hd, .expression (.argument hk hf ht) rfl⟩
  next => exact hasRead_settle hn hd hk (.name hf) h

theorem hasRead_step {read : List Token} (hr : r.HasRead read) {s : Reader} (ht : r.phase ≠ .done)
    (h : r.step t = .ok s) : s.HasRead (read ++ [t]) := by
  obtain ⟨hn, done, cur, rfl, hd, hc⟩ := hr
  obtain ⟨defined, phase⟩ := r
  cases hc with
  | item => simpa using hasRead_item hn hd h
  | name hk =>
    simp only [step] at h
    split at h
    next ht => cases h; exact ⟨hn, done, _, by simp, hd, .param hk ht⟩
    next => cases h
  | param hk hf =>
    simp only [step] at h
    split at h
    next ht => cases h; exact ⟨hn, done, _, by simp, hd, .equals hk hf ht⟩
    next => cases h
  | equals hk hf hx =>
    simp only [step] at h
    split at h
    next ht => cases h; exact ⟨hn, done, _, by simp, hd, .expression (.body (.mk hk hf hx ht)) rfl⟩
    next => cases h
  | expression hk hw =>
    simp only [step, expression] at h
    split at h
    next ht => cases h; exact ⟨hn, done, _, by simp, hd, .expression (.scrutinee hk hw ht) rfl⟩
    next => exact hasRead_operand hn hd hk h
  | operand hk => exact hasRead_operand hn hd hk h
  | head hk hf => exact hasRead_head hn hd hk hf h
  | after hk he => exact hasRead_settle hn hd hk he h
  | first hk hw hs _ =>
    simp only [step] at h
    split at h
    next => cases h
    next => simpa using hasRead_pattern hn hd hk hw hs .none h
  | pattern hk hw hs hcs => exact hasRead_pattern hn hd hk hw hs hcs h
  | arrow hk hw hs hcs hp =>
    simp only [step] at h
    split at h
    next ht =>
      cases h
      exact ⟨hn, done, _, by simp, hd, .expression (.branch hk hw hs hcs hp ht) rfl⟩
    next => cases h
  | done _ => exact absurd rfl ht

theorem hasRead_start : start.HasRead [] :=
  ⟨.nil, [], [], rfl, .empty, .item⟩

end Reader

end Casewise
