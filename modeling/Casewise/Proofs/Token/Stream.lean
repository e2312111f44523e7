import Casewise.Program.Parser

/-! Tokens that are a given word or symbol, and streams that end as they should: some tokens, and an end
token behind them. -/
namespace Casewise

namespace Token

theorem is_iff {t : Token} {kind : Kind} {text : String} :
    t.is kind text = true ↔ t.kind = kind ∧ t.value = .text text := by
  simp [is]

theorem is_eq_false {t : Token} {kind : Kind} {text : String} (h : t.kind ≠ kind) :
    t.is kind text = false := by
  simp [is, h]

theorem not_paren_of_kind {t : Token} (ht : t.kind ≠ .punctuation) :
    ¬ t.is .punctuation "(" ∧ ¬ t.is .punctuation ")" := by
  simp [is, ht]

theorem not_paren_of_is {t : Token} {kind : Kind} {text : String} (ht : t.is kind text)
    (hl : text ≠ "(") (hr : text ≠ ")") : ¬ t.is .punctuation "(" ∧ ¬ t.is .punctuation ")" := by
  obtain ⟨_, hv⟩ := is_iff.mp ht
  simp [is, hv, hl, hr]

end Token

namespace Token.Stream

/-- The stream of some tokens and a last one. -/
def closed (ts : List Token) (last : Token) : Stream := ts.foldr .more (.stop last)

@[simp] theorem toList_closed (ts : List Token) (last : Token) :
    (closed ts last).toList = ts ++ [last] := by
  induction ts with
  | nil => rfl
  | cons t ts ih => exact congrArg (t :: ·) ih

@[simp] theorem fault?_closed (ts : List Token) (last : Token) : (closed ts last).fault? = none := by
  induction ts with
  | nil => rfl
  | cons t ts ih => exact ih

private theorem ofListAfter_eq_closed {ts : List Token} {last : Token} (hts : ∀ t ∈ ts, t.kind ≠ .eof)
    (hlast : last.kind = .eof) (previous : Option Token) :
    ofListAfter previous (ts ++ [last]) = closed ts last := by
  induction ts generalizing previous with
  | nil => simp [ofListAfter, hlast, closed]
  | cons t ts ih =>
    have ht : t.kind ≠ .eof := hts t (by simp)
    have hrest := ih (fun u hu => hts u (by simp [hu])) (some t)
    simp only [List.cons_append, ofListAfter, ht, if_false, hrest]
    rfl

theorem ofList_eq_closed {ts : List Token} {last : Token} (hts : ∀ t ∈ ts, t.kind ≠ .eof)
    (hlast : last.kind = .eof) : ofList (ts ++ [last]) = closed ts last :=
  ofListAfter_eq_closed hts hlast none

end Token.Stream

namespace Reader

def take (r : Reader) (ts : List Token) : Except Refusal Reader := ts.foldlM step r

theorem take_cons {r s : Reader} {t : Token} (h : r.step t = .ok s) (ts : List Token) :
    r.take (t :: ts) = s.take ts := by
  rw [take, List.foldlM_cons, h]
  rfl

theorem take_cons_error {r : Reader} {t : Token} {x : Refusal} (h : r.step t = .error x) (ts : List Token) :
    r.take (t :: ts) = .error x := by
  rw [take, List.foldlM_cons, h]
  rfl

theorem take_one {r s : Reader} {t : Token} (h : r.step t = .ok s) : r.take [t] = .ok s :=
  take_cons h []

theorem take_congr {r s : Reader} {t : Token} (h : r.step t = s.step t) (ts : List Token) :
    r.take (t :: ts) = s.take (t :: ts) := by
  rw [take, take, List.foldlM_cons, List.foldlM_cons, h]

theorem take_append {r s : Reader} {ts : List Token} (h : r.take ts = .ok s) (us : List Token) :
    r.take (ts ++ us) = s.take us := by
  rw [take, List.foldlM_append]
  change (r.take ts >>= fun s => s.take us) = _
  rw [h]
  rfl

theorem take_append_error {r : Reader} {ts : List Token} {x : Refusal} (h : r.take ts = .error x)
    (us : List Token) : r.take (ts ++ us) = .error x := by
  rw [take, List.foldlM_append]
  change (r.take ts >>= fun s => s.take us) = _
  rw [h]
  rfl

theorem read_closed (r : Reader) (ts : List Token) (last : Token) :
    r.read (.closed ts last) = (r.take (ts ++ [last])).map Reader.defined := by
  induction ts generalizing r with
  | nil =>
    change (r.step last >>= fun s => Except.ok s.defined) = Except.map _ (r.step last >>= Except.ok)
    cases r.step last <;> rfl
  | cons t ts ih =>
    change (r.step t >>= fun s => s.read (.closed ts last)) =
      Except.map _ (r.step t >>= fun s => s.take (ts ++ [last]))
    cases r.step t with
    | error x => rfl
    | ok s => exact ih s

end Reader

theorem Program.read_of_ofTokens {s : Token.Stream} {x : Refusal} (h : ofTokens s = .error x) :
    Reader.start.read s = .error x := by
  unfold ofTokens at h
  cases hr : Reader.start.read s with
  | error y =>
    rw [hr] at h
    cases h
    rfl
  | ok fs =>
    rw [hr] at h
    cases h

theorem Program.ofTokens_closed (ts : List Token) (last : Token) :
    Program.ofTokens (.closed ts last) =
      (Reader.start.take (ts ++ [last])).map fun r => ofDefinitions r.defined := by
  rw [ofTokens, Reader.read_closed]
  cases Reader.start.take (ts ++ [last]) <;> rfl

end Casewise
