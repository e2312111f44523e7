import Casewise.Proofs.Program.Places
import Casewise.Proofs.Program.WellFormed

/-! Spacing and programs. Texts of the same tokens write the same program, or are refused alike. -/
namespace Casewise.Program

open Token

/-- Both texts write the same program, or break the grammar in the same way. -/
inductive ReadAlike : Except Refusal Program → Except Refusal Program → Prop
  | accepted {p q : Program} : p.same q → ReadAlike (.ok p) (.ok q)
  | refused {x y : Refusal} {e e' : Error} : x.fault = .error e → y.fault = .error e' →
    e.cause.family? = some .grammatical → e.cause = e'.cause → ReadAlike (.error x) (.error y)

variable {ts us : List Token} {last last' : Token}

theorem ofTokens_alike (hts : ∀ t ∈ ts, t.kind ≠ .eof) (hus : ∀ t ∈ us, t.kind ≠ .eof)
    (hlast : last.kind = .eof) (hlast' : last'.kind = .eof)
    (h : (ts ++ [last]).map content = (us ++ [last']).map content) :
    ReadAlike (ofTokens (.closed ts last)) (ofTokens (.closed us last')) := by
  let z := Span.between anonymous .start .start
  have htake : Reader.movedResult z (Reader.start.take (ts ++ [last])) =
      Reader.movedResult z (Reader.start.take (us ++ [last'])) := by
    rw [← Reader.take_moved, ← Reader.take_moved, map_moved_eq z h]
  rw [ofTokens_closed, ofTokens_closed]
  rcases Reader.take_start hts hlast with ⟨r, hr, _, hn⟩ | ⟨x, hx, e, he, hfamily⟩
  · rcases Reader.take_start hus hlast' with ⟨s, hs, _, _⟩ | ⟨y, hy, _⟩
    · rw [hr, hs] at htake ⊢
      obtain ⟨hdefined, _⟩ := Reader.mk.inj (Except.ok.inj htake)
      exact .accepted (same_of_moved hn hdefined)
    · rw [hr, hy] at htake
      cases htake
  · rcases Reader.take_start hus hlast' with ⟨s, hs, _, _⟩ | ⟨y, hy, e', he', _⟩
    · rw [hx, hs] at htake
      cases htake
    · rw [hx, hy] at htake ⊢
      obtain ⟨hfault, _⟩ := Refusal.mk.inj (Except.error.inj htake)
      rw [he, he'] at hfault
      exact .refused he he' hfamily (Fault.cause_eq_of_moved hfault)

theorem exists_closed {source file : String} (h : (tokenize source file).fault? = none) :
    ∃ ts last, tokenize source file = .closed ts last ∧ (∀ t ∈ ts, t.kind ≠ .eof) ∧
      last.kind = .eof := by
  obtain ⟨ts, hl⟩ := exists_layout h
  exact ⟨ts, _, scan_of_layout hl, fun t ht => (hl.lexed t ht).kind_ne_eof, rfl⟩

/-- Tokens that are written with any gaps between them are read back, with the end behind them. Texts
that are read to the same tokens, wherever these stand, write the same program or are refused alike. -/
theorem ofSource_ignores_spacing :
    (∀ (file : String) (front : List Char) (qs : List Piece), Gap front → (∀ q ∈ qs, q.Proper) →
      (∀ q ∈ qs.dropLast, q.gap ≠ []) →
      ∃ ts last, tokenize (String.ofList (Piece.write front qs)) file = .closed ts last ∧
        ts.map content = qs.map (·.token.content) ∧ last.content = (.eof, .absent)) ∧
    (∀ source source' file file' : String, (tokenize source file).fault? = none →
      (tokenize source' file').fault? = none →
      (tokenize source file).toList.map content = (tokenize source' file').toList.map content →
      ReadAlike (ofSource source file) (ofSource source' file')) := by
  constructor
  · intro file front qs hfront hqs hgaps
    obtain ⟨ts, hlayout, hcontent⟩ := layout_write file .start hfront hqs hgaps
    rw [tokenize, String.toList_ofList, scan_of_layout hlayout]
    exact ⟨ts, _, rfl, hcontent, rfl⟩
  · intro source source' file file' h h' hcontent
    obtain ⟨ts, last, hclosed, hts, hlast⟩ := exists_closed h
    obtain ⟨us, last', hclosed', hus, hlast'⟩ := exists_closed h'
    rw [hclosed, hclosed', Stream.toList_closed, Stream.toList_closed] at hcontent
    rw [ofSource, ofSource, hclosed, hclosed']
    exact ofTokens_alike hts hus hlast hlast' hcontent

/-- Comments that hold marks and stars, glued to parentheses, to words and to the sign. -/
theorem ofSource_ignores_spacing_comments :
    let piece (kind : Kind) (value : Scalar) (text gap : String) : Piece :=
      ⟨⟨kind, value, Span.between anonymous .start .start⟩, text.toList, gap.toList⟩
    let qs := [piece .keyword (.text "fun") "fun" "(**)", piece .identifier (.text "f") "f" " ",
      piece .identifier (.text "x") "x" "(*)*)", piece .punctuation (.text "=") "=" "(***)",
      piece .punctuation (.text "(") "(" "(*(* *)", piece .integer (.int 2) "02" "\n",
      piece .punctuation (.text ")") ")" "(*\n*)"]
    (∃ ts last, tokenize "(***)fun(**)f x(*)*)=(***)((*(* *)02\n)(*\n*)" "a" = .closed ts last ∧
      ts.map content = qs.map (·.token.content)) ∧
    ∃ p q, ofSource "(***)fun(**)f x(*)*)=(***)((*(* *)02\n)(*\n*)" "a" = .ok p ∧
      ofSource "fun f x = (2)" "b" = .ok q ∧ p.same q := by
  intro piece qs
  have hcomment (inside : List Char) (h : ¬ ['*', ')'] <:+: inside) :
      Gap ('(' :: '*' :: inside ++ ['*', ')']) := .comment (neverCloses_iff.mpr h) .nil
  have hstar : Gap "(***)".toList := hcomment ['*'] (by decide)
  have hqs : ∀ q ∈ qs, q.Proper := by
    simp only [qs, piece, List.forall_mem_cons]
    refine ⟨⟨⟨by decide, rfl⟩, nofun, hcomment [] (by decide)⟩,
      ⟨⟨⟨'f', [], rfl, by decide, by simp⟩, by decide, rfl⟩, nofun, .blank (by decide) .nil⟩,
      ⟨⟨⟨'x', [], rfl, by decide, by simp⟩, by decide, rfl⟩, nofun, hcomment [')'] (by decide)⟩,
      ⟨⟨by decide, rfl⟩, nofun, hstar⟩,
      ⟨⟨by decide, rfl⟩, nofun, hcomment ['(', '*', ' '] (by decide)⟩,
      ⟨⟨by decide, by simp, rfl⟩, by decide, .blank (by decide) .nil⟩,
      ⟨⟨by decide, rfl⟩, nofun, hcomment ['\n'] (by decide)⟩, by simp⟩
  have hgaps : ∀ q ∈ qs.dropLast, q.gap ≠ [] := by simp [qs, piece]
  obtain ⟨hwritten, hread⟩ := ofSource_ignores_spacing
  obtain ⟨ts, last, hclosed, hts, _⟩ := hwritten "a" "(***)".toList qs hstar hqs hgaps
  have halike := hread "(***)fun(**)f x(*)*)=(***)((*(* *)02\n)(*\n*)" "fun f x = (2)" "a" "b"
    (by decide +kernel) (by decide +kernel) (by decide +kernel)
  have hok : (ofSource "fun f x = (2)" "b").isOk := by decide +kernel
  refine ⟨⟨ts, last, hclosed, hts⟩, ?_⟩
  generalize ofSource _ "a" = r, ofSource _ "b" = r' at halike hok
  cases halike with
  | accepted h => exact ⟨_, _, rfl, rfl, h⟩
  | refused => cases hok

end Casewise.Program
