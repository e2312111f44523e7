import Casewise.Proofs.Program.Unambiguous
import Casewise.Proofs.Token.Reads

/-! How many parentheses are opened in front of each word. Words are all tokens but parentheses, and where a
text is put together from parts, so are their numbers. -/
namespace Casewise

namespace Token

/-- A token within a definition that is no parenthesis. -/
structure IsWord (t : Token) : Prop where
  not_paren : ¬ t.is .punctuation "(" ∧ ¬ t.is .punctuation ")"
  isFun : t.isFun = false

theorem isWord_of_kind {t : Token} (h : t.kind = .identifier ∨ t.kind = .integer) : t.IsWord := by
  have hpunctuation : t.kind ≠ .punctuation := by rcases h with h | h <;> simp [h]
  have hkeyword : t.kind ≠ .keyword := by rcases h with h | h <;> simp [h]
  exact ⟨not_paren_of_kind hpunctuation, is_eq_false hkeyword⟩

theorem isWord_of_is {t : Token} {kind : Kind} {text : String} (h : t.is kind text)
    (hne : text ∉ ["(", ")", "fun"]) : t.IsWord := by
  simp only [List.mem_cons, List.not_mem_nil, or_false, not_or] at hne
  exact ⟨not_paren_of_is h hne.1 hne.2.1, isFun_of_is h hne.2.2⟩

/-- The lexeme is a word wherever it stands. -/
structure Lexeme.IsWord (l : Lexeme) : Prop where
  formed : l.Formed
  isWord : ∀ span, (l.token span).IsWord

theorem Lexeme.isWord_of_kind {l : Lexeme} (hl : l.Formed) (h : l.kind = .identifier ∨ l.kind = .integer) :
    l.IsWord :=
  ⟨hl, fun _ => Token.isWord_of_kind h⟩

theorem Lexeme.isWord_of_not_mem {kind : Kind} {text : List Char} (hl : Formed ⟨kind, text⟩)
    (hk : kind ≠ .integer) (hne : String.ofList text ∉ ["(", ")", "fun"]) : IsWord ⟨kind, text⟩ :=
  ⟨hl, fun span => isWord_of_is (token_is hk span) hne⟩

/-- For each word, the number of parentheses opened between it and the word in front of it. -/
def openings : List Token → List Nat
  | [] => []
  | t :: ts =>
    if t.is .punctuation "(" then (openings ts).modifyHead (· + 1)
    else if t.is .punctuation ")" then openings ts
    else 0 :: openings ts

/-- The tokens open so many parentheses in front of each of their words, and none behind the last one. -/
structure Opens (ts : List Token) (ns : List Nat) : Prop where
  append_eq : ∀ us, openings (ts ++ us) = ns ++ openings us
  isFun : ∀ t ∈ ts, t.isFun = false

namespace Opens

variable {ts us : List Token} {ns ms : List Nat}

theorem unique (h : Opens ts ns) (h' : Opens ts ms) : ns = ms := by
  have heq := (h.append_eq []).symm.trans (h'.append_eq [])
  simpa [openings] using heq

theorem word {t : Token} (ht : t.IsWord) : Opens [t] [0] :=
  ⟨fun us => by simp [openings, ht.not_paren], by simpa using ht.isFun⟩

theorem append (h : Opens ts ns) (h' : Opens us ms) : Opens (ts ++ us) (ns ++ ms) := by
  refine ⟨fun vs => ?_, ?_⟩
  · rw [List.append_assoc, h.append_eq, h'.append_eq, List.append_assoc]
  · simpa [or_imp, forall_and] using And.intro h.isFun h'.isFun

theorem cons {t : Token} (ht : t.IsWord) (h : Opens ts ns) : Opens (t :: ts) (0 :: ns) :=
  (word ht).append h

theorem group {l r : Token} (hl : l.is .punctuation "(") (h : Opens ts ns) (hne : ns ≠ [])
    (hr : r.is .punctuation ")") : Opens (l :: (ts ++ [r])) (ns.modifyHead (· + 1)) := by
  have hopen := isFun_of_is hl (by decide)
  have hclose := isFun_of_is hr (by decide)
  refine ⟨fun us => ?_, ?_⟩
  · have hend : openings (r :: us) = openings us := by
      obtain ⟨hk, hv⟩ := is_iff.mp hr
      simp [openings, is, hk, hv]
    obtain ⟨n, ns, rfl⟩ := List.exists_cons_of_ne_nil hne
    rw [List.cons_append, List.append_assoc, openings, if_pos hl, h.append_eq]
    simp [hend]
  · simpa [or_imp, forall_and, hopen, hclose] using h.isFun

end Opens

end Token

open Token

/-- Where the text can be read, it opens so many parentheses in front of its words. It does not begin with a star,
which would make a comment of a parenthesis in front of it. -/
structure Opening (text : String) (R : List Nat → Prop) : Prop where
  head : text.toList.head? ≠ some '*'
  reads : Reads text.toList fun ts => ∃ ns, Opens ts ns ∧ R ns

namespace Opening

variable {text left right : String} {R S : List Nat → Prop} {l : Lexeme}

theorem mono (h : Opening text R) (hRS : ∀ ns, R ns → S ns) : Opening text S := by
  refine ⟨h.head, h.reads.mono ?_⟩
  rintro ts ⟨ns, hts, hns⟩
  exact ⟨ns, hts, hRS ns hns⟩

theorem word (hl : l.IsWord) (hstar : l.text.head? ≠ some '*') (htext : text.toList = l.text) :
    Opening text (· = [0]) := by
  refine ⟨by rwa [htext], ?_⟩
  rw [htext]
  refine (Reads.composes.single hl.formed).mono ?_
  rintro ts ⟨span, rfl⟩
  exact ⟨[0], .word (hl.isWord span), rfl⟩

theorem prefixed (left : String) (hl : l.IsWord) (hstar : l.text.head? ≠ some '*')
    (hleft : left.toList = l.text ++ [' ']) (h : Opening right R) :
    Opening (left ++ right) fun ns => ∃ ms, ns = 0 :: ms ∧ R ms := by
  have htoList : (left ++ right).toList = l.text ++ ' ' :: right.toList := by simp [hleft]
  refine ⟨by rw [htoList]; exact head_append_ne hstar (by simp), ?_⟩
  rw [htoList]
  refine (Reads.composes.word hl.formed h.reads).mono ?_
  rintro ts ⟨span, us, rfl, ms, hms, hR⟩
  exact ⟨_, hms.cons (hl.isWord span), ms, rfl, hR⟩

/-- A word between two texts, and spaces around it. -/
theorem infixed (separator : String) (hl : l.IsWord) (hseparator : separator.toList = ' ' :: (l.text ++ [' ']))
    (h : Opening left R) (h' : Opening right S) : Opening (left ++ separator ++ right) fun ns =>
      ∃ ls rs, ns = ls ++ 0 :: rs ∧ R ls ∧ S rs := by
  have htoList : (left ++ separator ++ right).toList =
      left.toList ++ ' ' :: (l.text ++ ' ' :: right.toList) := by simp [hseparator]
  refine ⟨by rw [htoList]; exact head_append_ne h.head (by simp), ?_⟩
  rw [htoList]
  refine (Reads.composes.infixed h.reads hl.formed h'.reads).mono ?_
  rintro ts ⟨us, span, vs, rfl, ⟨ls, hls, hR⟩, rs, hrs, hS⟩
  exact ⟨_, hls.append (hrs.cons (hl.isWord span)), ls, rs, rfl, hR, hS⟩

theorem group (h : Opening text R) (hne : ∀ ns, R ns → ns ≠ []) :
    Opening ("(" ++ text ++ ")") fun ns => ∃ ms, ns = ms.modifyHead (· + 1) ∧ R ms := by
  have htoList : ("(" ++ text ++ ")").toList = '(' :: (text.toList ++ [')']) := by simp
  refine ⟨by simp [htoList], ?_⟩
  rw [htoList]
  refine (Reads.composes.group h.reads h.head).mono ?_
  rintro ts ⟨l, r, us, rfl, hl, hr, ms, hms, hR⟩
  exact ⟨_, hms.group hl (hne ms hR) hr, ms, rfl, hR⟩

end Opening

end Casewise
