import Mathlib.Data.List.Basic
import Casewise.Outline.Listing
import Casewise.Proofs.Token.Form

/-! The lines of a listing can be read back. The margin tells how deep a node stands, letters its label, and the
quoted values are told apart as long as they hold no quotes, commas or hidden characters. -/
namespace Casewise

section

variable {a a' s s' : List Char} {p : Char → Bool}

/-- Two texts are the same in front of and behind the place where a run of characters ends. -/
theorem append_inj_of_head? (h : a ++ s = a' ++ s') (ha : ∀ c ∈ a, p c) (ha' : ∀ c ∈ a', p c)
    (hs : ∀ c ∈ s.head?, p c = false) (hs' : ∀ c ∈ s'.head?, p c = false) : a = a' ∧ s = s' := by
  have hrun := congrArg (List.takeWhile p) h
  rw [Token.takeWhile_append_of_head? ha hs, Token.takeWhile_append_of_head? ha' hs'] at hrun
  subst hrun
  exact ⟨rfl, List.append_cancel_left h⟩

/-- Two texts are the same in front of and behind the first place where they have a mark. -/
theorem append_inj_of_not_mem {mark : Char} (h : a ++ mark :: s = a' ++ mark :: s') (ha : mark ∉ a)
    (ha' : mark ∉ a') : a = a' ∧ s = s' := by
  have hother {b : List Char} (hb : mark ∉ b) : ∀ c ∈ b, decide (c ≠ mark) := by
    intro c hc
    exact decide_eq_true (ne_of_mem_of_not_mem hc hb)
  obtain ⟨hrun, hrest⟩ := append_inj_of_head? h (hother ha) (hother ha') (by simp) (by simp)
  exact ⟨hrun, (List.cons.inj hrest).2⟩

end

/-- Lines that are ended by line feeds and hold none are told apart by these. -/
theorem lines_inj {ls ms : List (List Char)} (hls : ∀ l ∈ ls, '\n' ∉ l) (hms : ∀ m ∈ ms, '\n' ∉ m)
    (h : ls.flatMap (· ++ ['\n']) = ms.flatMap (· ++ ['\n'])) : ls = ms := by
  induction ls generalizing ms with
  | nil =>
    cases ms with
    | nil => rfl
    | cons m ms => simp at h
  | cons l ls ih =>
    cases ms with
    | nil => simp at h
    | cons m ms =>
      obtain ⟨hl, hls⟩ := List.forall_mem_cons.mp hls
      obtain ⟨hm, hmore⟩ := List.forall_mem_cons.mp hms
      rw [List.flatMap_cons, List.flatMap_cons, List.append_assoc, List.append_assoc] at h
      obtain ⟨rfl, hrest⟩ := append_inj_of_not_mem h hl hm
      exact congrArg (l :: ·) (ih hls hmore hrest)

section

variable (l k : List Char) (ls : List (List Char))

private theorem commas_one : [',', ' '].intercalate [l] = l := by simp [List.intercalate]

private theorem commas_cons :
    [',', ' '].intercalate (l :: k :: ls) = l ++ ',' :: (' ' :: [',', ' '].intercalate (k :: ls)) := by
  simp [List.intercalate]

end

theorem mem_commas {c : Char} {ls : List (List Char)} (h : c ∈ [',', ' '].intercalate ls) :
    c = ',' ∨ c = ' ' ∨ ∃ l ∈ ls, c ∈ l := by
  induction ls with
  | nil => cases h
  | cons l ls ih =>
    rcases ls with _ | ⟨k, ls⟩
    · rw [commas_one] at h
      exact Or.inr (Or.inr ⟨l, by simp, h⟩)
    · rw [commas_cons, List.mem_append, List.mem_cons, List.mem_cons] at h
      rcases h with h | rfl | rfl | h
      · exact Or.inr (Or.inr ⟨l, by simp, h⟩)
      · exact Or.inl rfl
      · exact Or.inr (Or.inl rfl)
      · rcases ih h with hcomma | hspace | ⟨m, hm, hc⟩
        · exact Or.inl hcomma
        · exact Or.inr (Or.inl hspace)
        · exact Or.inr (Or.inr ⟨m, List.mem_cons_of_mem l hm, hc⟩)

/-- Texts that hold no comma and are not empty are told apart by commas. -/
theorem commas_inj {ls ms : List (List Char)} (hls : ∀ l ∈ ls, l ≠ [] ∧ ',' ∉ l)
    (hms : ∀ m ∈ ms, m ≠ [] ∧ ',' ∉ m)
    (h : [',', ' '].intercalate ls = [',', ' '].intercalate ms) : ls = ms := by
  induction ls generalizing ms with
  | nil =>
    rcases ms with _ | ⟨m, _ | ⟨n, ms⟩⟩
    · rfl
    · rw [commas_one] at h
      exact absurd h.symm (hms m (by simp)).1
    · rw [commas_cons] at h
      simp at h
  | cons l ls ih =>
    obtain ⟨⟨hne, hl⟩, hls⟩ := List.forall_mem_cons.mp hls
    rcases ms with _ | ⟨m, ms⟩
    · rcases ls with _ | ⟨k, ls⟩
      · rw [commas_one] at h
        exact absurd h hne
      · rw [commas_cons] at h
        simp at h
    · obtain ⟨⟨_, hm⟩, hmore⟩ := List.forall_mem_cons.mp hms
      rcases ls with _ | ⟨k, ls⟩ <;> rcases ms with _ | ⟨n, ms⟩
      · rw [commas_one, commas_one] at h
        rw [h]
      · rw [commas_one, commas_cons] at h
        exact absurd (h ▸ by simp) hl
      · rw [commas_one, commas_cons] at h
        exact absurd (h ▸ by simp) hm
      · rw [commas_cons, commas_cons] at h
        obtain ⟨rfl, hrest⟩ := append_inj_of_not_mem h hl hm
        exact congrArg (l :: ·) (ih hls hmore (List.cons.inj hrest).2)

/-- A character that stands for itself in quoted text and separates nothing in a listing. -/
def Text.IsPlain (c : Char) : Prop :=
  0x20 ≤ c.toNat ∧ c.toNat ≤ 0x7e ∧ c ≠ '\x27' ∧ c ≠ '\\' ∧ c ≠ ','

theorem Text.quotedChar_eq {c : Char} (h : IsPlain c) : quotedChar '\x27' c = [c] := by
  obtain ⟨hlow, hhigh, hquote, hslash, _⟩ := h
  have hne {d : Char} (hd : d.toNat < 0x20) : c ≠ d := by
    rintro rfl
    omega
  have hprintable : isPrintable c := by
    unfold isPrintable
    simp [hlow, hhigh]
  unfold quotedChar
  rw [if_neg (by simp [hquote, hslash]), if_neg (hne (by decide)), if_neg (hne (by decide)),
    if_neg (hne (by decide)), if_pos hprintable]

/-- Plain text is quoted as it is. -/
theorem Text.toList_quoted {s : String} (h : ∀ c ∈ s.toList, IsPlain c) :
    (quoted s).toList = '\x27' :: s.toList ++ ['\x27'] := by
  have hmark : quoteMark s.toList = '\x27' := by
    have hquote : s.toList.contains '\x27' = false := by
      rw [← Bool.not_eq_true, List.contains_iff_mem]
      exact fun hmem => (h _ hmem).2.2.1 rfl
    rw [quoteMark, hquote]
    rfl
  have hchars : s.toList.flatMap (quotedChar '\x27') = s.toList := by
    rw [List.flatMap_congr fun c hc => quotedChar_eq (h c hc), List.flatMap_singleton']
  unfold quoted
  dsimp only
  rw [hmark, hchars, String.toList_ofList]

namespace Scalar

/-- A text of plain characters, or a number without a sign. -/
inductive IsPlain : Scalar → Prop
  | text {s : String} : (∀ c ∈ s.toList, Text.IsPlain c) → IsPlain (.text s)
  | int (n : Nat) : IsPlain (.int n)

variable {v w : Scalar}

theorem toList_quoted_int (n : Nat) : (quoted (.int n)).toList = Nat.toDigits 10 n := by
  change n.repr.toList = _
  exact Nat.toList_repr

theorem IsPlain.quoted_chars (h : v.IsPlain) :
    v.quoted.toList ≠ [] ∧ ∀ c ∈ v.quoted.toList, c ≠ ',' ∧ c ≠ '\n' := by
  cases h with
  | @text s hs =>
    change (Text.quoted s).toList ≠ [] ∧ ∀ c ∈ (Text.quoted s).toList, c ≠ ',' ∧ c ≠ '\n'
    rw [Text.toList_quoted hs]
    refine ⟨by simp, fun c hc => ?_⟩
    rw [List.mem_append, List.mem_cons, List.mem_singleton] at hc
    rcases hc with (rfl | hc) | rfl
    · decide
    · obtain ⟨hlow, _, _, _, hcomma⟩ := hs c hc
      refine ⟨hcomma, ?_⟩
      rintro rfl
      exact absurd hlow (by decide)
    · decide
  | int n =>
    rw [toList_quoted_int]
    refine ⟨Nat.toDigits_ne_nil, fun c hc => ?_⟩
    have hdigit := Nat.isDigit_of_mem_toDigits (by decide) (by decide) hc
    constructor
    · rintro rfl
      exact absurd hdigit (by decide)
    · rintro rfl
      exact absurd hdigit (by decide)

/-- Plain values can be read back. -/
theorem IsPlain.eq_of_quoted (hv : v.IsPlain) (hw : w.IsPlain) (h : v.quoted = w.quoted) : v = w := by
  have hnumber {s : String} (hs : ∀ c ∈ s.toList, Text.IsPlain c) (n : Nat) :
      quoted (.text s) ≠ quoted (.int n) := by
    intro heq
    have hlist := congrArg String.toList heq
    rw [toList_quoted_int] at hlist
    have hquote : '\x27' ∈ Nat.toDigits 10 n := by
      rw [← hlist]
      change '\x27' ∈ (Text.quoted s).toList
      simp [Text.toList_quoted hs]
    exact absurd (Nat.isDigit_of_mem_toDigits (by decide) (by decide) hquote) (by decide)
  have hlist := congrArg String.toList h
  cases hv with
  | @text s hs =>
    cases hw with
    | @text t ht =>
      change (Text.quoted s).toList = (Text.quoted t).toList at hlist
      rw [Text.toList_quoted hs, Text.toList_quoted ht, List.cons_append, List.cons_append] at hlist
      rw [String.toList_inj.mp (List.append_cancel_right (List.cons.inj hlist).2)]
    | int n => exact absurd h (hnumber hs n)
  | int m =>
    cases hw with
    | text ht => exact absurd h.symm (hnumber ht m)
    | int n =>
      rw [toList_quoted_int, toList_quoted_int] at hlist
      have hvalue := congrArg (Nat.ofDigitChars 10 · 0) hlist
      simp only [Nat.ofDigitChars_ten_toDigits] at hvalue
      rw [hvalue]

theorem scalars_inj {vs ws : List Scalar} (hvs : ∀ v ∈ vs, v.IsPlain) (hws : ∀ w ∈ ws, w.IsPlain)
    (h : (vs.map fun v => v.quoted.toList) = ws.map fun w => w.quoted.toList) : vs = ws := by
  induction vs generalizing ws with
  | nil =>
    cases ws with
    | nil => rfl
    | cons w ws => cases h
  | cons v vs ih =>
    cases ws with
    | nil => cases h
    | cons w ws =>
      obtain ⟨hv, hvs⟩ := List.forall_mem_cons.mp hvs
      obtain ⟨hw, hws⟩ := List.forall_mem_cons.mp hws
      obtain ⟨hhead, htail⟩ := List.cons.inj h
      rw [hv.eq_of_quoted hw (String.toList_inj.mp hhead), ih hvs hws htail]

end Scalar

namespace Outline.Line

/-- A line whose label is a word of letters and whose values are plain. -/
structure IsPlain (l : Line) : Prop where
  label_ne : l.label.toList ≠ []
  label : ∀ c ∈ l.label.toList, c.isAlpha
  scalars : ∀ v ∈ l.scalars, v.IsPlain

/-- What a line shows: how deep the node stands, its label and its scalars. -/
def content (l : Line) : Nat × String × List Scalar := (l.depth, l.label, l.scalars)

def heading (l : Line) : String :=
  l.label ++ if l.scalars.isEmpty then "" else "(" ++ ", ".intercalate (l.scalars.map Scalar.quoted) ++ ")"

theorem render_zero (l : Line) :
    l.render 0 = String.ofList (List.replicate (2 * l.depth) ' ') ++ l.heading ++ "\n" := by
  have hindent : (0 + (l.depth : Int)).toNat = l.depth := by omega
  unfold render heading
  rw [hindent]
  simp [String.append_assoc]

variable {l m : Line}

/-- The values are written in parentheses behind the label. -/
theorem toList_heading (l : Line) : l.heading.toList = l.label.toList ++
    if l.scalars = [] then [] else
      '(' :: [',', ' '].intercalate (l.scalars.map fun v => v.quoted.toList) ++ [')'] := by
  unfold heading
  by_cases h : l.scalars = []
  · simp [h]
  · simp [h, List.map_map, Function.comp_def]

theorem IsPlain.lineFeed_not_mem (h : l.IsPlain) : '\n' ∉ l.heading.toList := by
  rw [toList_heading, List.mem_append]
  rintro (hlabel | hvalues)
  · exact absurd (h.label _ hlabel) (by decide)
  · split at hvalues
    · cases hvalues
    · rw [List.mem_append, List.mem_cons, List.mem_singleton] at hvalues
      rcases hvalues with (hopen | hinside) | hclose
      · exact absurd hopen (by decide)
      · rcases mem_commas hinside with hcomma | hspace | ⟨s, hs, hfeed⟩
        · exact absurd hcomma (by decide)
        · exact absurd hspace (by decide)
        · obtain ⟨v, hv, rfl⟩ := List.mem_map.mp hs
          exact ((h.scalars v hv).quoted_chars.2 _ hfeed).2 rfl
      · exact absurd hclose (by decide)

/-- A label ends where the line ends, or at the parenthesis of the values. -/
theorem IsPlain.heading_inj (hl : l.IsPlain) (hm : m.IsPlain) (h : l.heading = m.heading) :
    l.label = m.label ∧ l.scalars = m.scalars := by
  have hlist := congrArg String.toList h
  rw [toList_heading, toList_heading] at hlist
  have hends (k : Line) : ∀ c ∈ (if k.scalars = [] then [] else
      '(' :: [',', ' '].intercalate (k.scalars.map fun v => v.quoted.toList) ++ [')']).head?,
      c.isAlpha = false := by
    split
    · simp
    · simp
  obtain ⟨hlabel, hvalues⟩ := append_inj_of_head? hlist hl.label hm.label (hends l) (hends m)
  refine ⟨String.toList_inj.mp hlabel, ?_⟩
  have hquoted {k : Line} (hk : k.IsPlain) : ∀ s ∈ k.scalars.map fun v => v.quoted.toList, s ≠ [] ∧ ',' ∉ s := by
    intro s hs
    obtain ⟨v, hv, rfl⟩ := List.mem_map.mp hs
    obtain ⟨hne, hchars⟩ := (hk.scalars v hv).quoted_chars
    exact ⟨hne, fun hcomma => (hchars _ hcomma).1 rfl⟩
  by_cases hlnil : l.scalars = []
  · by_cases hmnil : m.scalars = []
    · rw [hlnil, hmnil]
    · rw [if_pos hlnil, if_neg hmnil] at hvalues
      cases hvalues
  · by_cases hmnil : m.scalars = []
    · rw [if_neg hlnil, if_pos hmnil] at hvalues
      cases hvalues
    · rw [if_neg hlnil, if_neg hmnil, List.cons_append, List.cons_append] at hvalues
      have hinside := commas_inj (hquoted hl) (hquoted hm) (List.append_cancel_right (List.cons.inj hvalues).2)
      exact Scalar.scalars_inj hl.scalars hm.scalars hinside

theorem IsPlain.head_heading (h : l.IsPlain) : ∃ c s, l.heading.toList = c :: s ∧ c.isAlpha := by
  rw [toList_heading]
  cases hlabel : l.label.toList with
  | nil => exact absurd hlabel h.label_ne
  | cons c s => exact ⟨c, _, rfl, h.label c (by simp [hlabel])⟩

/-- What a plain line shows can be read off it. -/
theorem IsPlain.content_eq_of_render (hl : l.IsPlain) (hm : m.IsPlain) (h : l.render 0 = m.render 0) :
    l.content = m.content := by
  have hlist := congrArg String.toList h
  rw [render_zero, render_zero] at hlist
  simp only [String.toList_append, String.toList_ofList] at hlist
  have hmargin : ∀ n, ∀ c ∈ List.replicate n ' ', c == ' ' := by
    intro n c hc
    rw [List.eq_of_mem_replicate hc]
    rfl
  have hheading {k : Line} (hk : k.IsPlain) : ∀ c ∈ k.heading.toList.head?, (c == ' ') = false := by
    obtain ⟨c, s, hs, hc⟩ := hk.head_heading
    rw [hs]
    rintro d ⟨⟩
    rw [beq_eq_false_iff_ne]
    rintro rfl
    exact absurd hc (by decide)
  obtain ⟨hdepth, hrest⟩ := append_inj_of_head? (List.append_cancel_right hlist) (hmargin _) (hmargin _)
    (hheading hl) (hheading hm)
  have hlength := congrArg List.length hdepth
  rw [List.length_replicate, List.length_replicate] at hlength
  obtain ⟨hlabel, hscalars⟩ := hl.heading_inj hm (String.toList_inj.mp hrest)
  have hsame : l.depth = m.depth := by omega
  unfold content
  rw [hsame, hlabel, hscalars]

end Outline.Line

end Casewise
