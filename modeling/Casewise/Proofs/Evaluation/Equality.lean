import Casewise.Evaluation.Session
import Casewise.Proofs.Evaluation.Correspondence
import Casewise.Proofs.Expr.Genuine
import Casewise.Proofs.Program.RoundTrip

/-! Equal programs behave equally. No span has a say in what a program does, so a program may be laid out anew:
printed and read again it does what it did. -/
namespace Casewise

namespace Expr

variable {e e' : Expr}

theorem Genuine.corresponds (he : e.Genuine) (he' : e'.Genuine) (h : e.same e') (x : Name) :
    e.Corresponds Set.univ False x x e' := by
  refine he.same_induct (motive := fun e e' => e.Corresponds Set.univ False x x e') ?_ ?_ ?_ ?_ ?_ he' h
  · exact fun v w s t hvw => .int (Scalar.word_eq_of_same hvw)
  · intro y s t
    by_cases hy : y = x
    · rw [hy]
      exact .bound
    · exact .unbound hy hy False.elim
  · exact fun _ _ _ _ _ _ _ hl hr => .binary hl hr
  · exact fun _ _ _ _ _ hb => .call trivial False.elim hb
  · exact fun _ _ _ _ _ _ he hcs => .case_of_forall₂ False.elim he hcs

theorem Genuine.sameShape (he : e.Genuine) (he' : e'.Genuine) (h : e.same e') : e.SameShape e' := by
  refine he.same_induct (motive := fun e e' => e.SameShape e') ?_ ?_ ?_ ?_ ?_ he' h
  · exact fun _ _ _ _ _ => .int
  · exact fun _ _ _ => .var
  · exact fun _ _ _ _ _ _ _ hl hr => .binary hl hr
  · exact fun _ _ _ _ _ hb => .call hb
  · exact fun _ _ _ _ _ _ he hcs => .case_of_forall₂ he (hcs.imp fun _ _ hcd => hcd.2)

end Expr

namespace Definition

structure Genuine (g : Definition) : Prop where
  name : g.name.IsName
  param : g.param.IsName
  body : g.body.Genuine

variable {g h : Definition}

theorem Genuine.name_eq (hg : g.Genuine) (hh : h.Genuine) (hsame : g.same h) : g.name = h.name :=
  hg.name.eq_of_same hh.name (same_iff.mp hsame).1

theorem Genuine.param_eq (hg : g.Genuine) (hh : h.Genuine) (hsame : g.same h) : g.param = h.param :=
  hg.param.eq_of_same hh.param (same_iff.mp hsame).2.1

theorem Genuine.corresponds (hg : g.Genuine) (hh : h.Genuine) (hsame : g.same h) :
    g.Corresponds Set.univ False h := by
  refine ⟨hg.name_eq hh hsame, ?_, False.elim⟩
  rw [← hg.param_eq hh hsame]
  exact hg.body.corresponds hh.body (same_iff.mp hsame).2.2 g.param

theorem Genuine.logLine_eq (hg : g.Genuine) (hh : h.Genuine) (hsame : g.same h) : g.logLine = h.logLine := by
  have hname : g.name = h.name := hg.name_eq hh hsame
  have hparam : g.param = h.param := hg.param_eq hh hsame
  unfold logLine
  rw [hname, hparam]

end Definition

namespace Program

def Genuine (p : Program) : Prop := ∀ g ∈ p.definitions, g.Genuine

variable {p q : Program}

theorem Genuine.forall₂ (hp : p.Genuine) (hq : q.Genuine) (h : p.same q) :
    List.Forall₂ (fun e d => e.1 = d.1 ∧ e.2.Genuine ∧ d.2.Genuine ∧ e.2.same d.2) p.entries q.entries := by
  obtain ⟨hlength, hzip⟩ := List.forall₂_iff_zip.mp (forall₂_of_same h)
  refine List.forall₂_iff_zip.mpr ⟨hlength, fun {e d} hed => ?_⟩
  obtain ⟨he, hd⟩ := List.of_mem_zip hed
  obtain ⟨hkey, hsame⟩ := hzip hed
  exact ⟨hkey, hp _ (List.mem_map_of_mem he), hq _ (List.mem_map_of_mem hd), hsame⟩

theorem Genuine.corresponds (hp : p.Genuine) (hq : q.Genuine) (h : p.same q) :
    p.Corresponds Set.univ False q := by
  refine corresponds_of_forall₂ ((hp.forall₂ hq h).imp ?_)
  rintro e d ⟨hkey, he, hd, hsame⟩
  exact ⟨hkey, he.corresponds hd hsame⟩

theorem Genuine.sameShape (hp : p.Genuine) (hq : q.Genuine) (h : p.same q) : p.SameShape q := by
  refine (hp.forall₂ hq h).imp ?_
  rintro e d ⟨_, he, hd, hsame⟩
  exact he.body.sameShape hd.body (Definition.same_iff.mp hsame).2.2

theorem Genuine.readingLog_eq (hp : p.Genuine) (hq : q.Genuine) (h : p.same q) : p.readingLog = q.readingLog := by
  refine map_definitions_eq_of_forall₂ ((hp.forall₂ hq h).imp ?_)
  rintro e d ⟨_, he, hd, hsame⟩
  exact he.logLine_eq hd hsame

theorem WellFormed.genuine (h : p.WellFormed) : p.Genuine := by
  intro g hg
  have hwell := h.definitions g hg
  exact ⟨hwell.name.isName, hwell.param.isName, hwell.body.genuine⟩

/-- Programs that are the same end in the same value or in the same fault, which may have another place, with the
same log; and so does a program that is printed and read again. -/
theorem evaluate_same :
    (∀ p q : Program, p.Genuine → q.Genuine → p.same q → ∀ runtime f arguments limit,
      (∀ stack, (p.evaluateOn stack f arguments limit).Agrees False (q.evaluateOn stack f arguments limit)) ∧
      (p.execute runtime f arguments limit).Agrees False (q.execute runtime f arguments limit) ∧
      Call.log (p.evaluate f arguments limit).calls = Call.log (q.evaluate f arguments limit).calls ∧
      Call.log (p.execute runtime f arguments limit).calls = Call.log (q.execute runtime f arguments limit).calls) ∧
    ∀ source file p, ofSource source file = .ok p → ∃ text, p.format = .ok text ∧
      ∀ file' f arguments limit,
        let session := Session.ofSource source file f arguments limit
        let session' := Session.ofSource text file' f arguments limit
        session.run.Agrees False session'.run ∧ session.log = session'.log := by
  constructor
  · intro p q hp hq hsame runtime f arguments limit
    have hpq := hp.corresponds hq hsame
    have hstacks (stack : Stack) := hpq.evaluateOn_agrees (f := f) trivial stack arguments limit
    have hexecute := hpq.execute_agrees (f := f) (hp.sameShape hq hsame) trivial runtime arguments limit
    exact ⟨hstacks, hexecute, congrArg Call.log (hstacks .endless).calls_eq,
      congrArg Call.log hexecute.calls_eq⟩
  · intro source file p hread
    have hwell := wellFormed_of_ofSource hread
    obtain ⟨text, htext, hagain⟩ := hwell.ofSource_format
    refine ⟨text, htext, fun file' f arguments limit => ?_⟩
    obtain ⟨q, hq, hsame⟩ := hagain file'
    have hgenuine := (wellFormed_of_ofSource hq).genuine
    have hrun := (hwell.genuine.corresponds hgenuine hsame).evaluateOn_agrees (f := f) trivial .endless
      arguments limit
    have hlog := hwell.genuine.readingLog_eq hgenuine hsame
    unfold Session.ofSource Session.ofProgram
    rw [hread, hq]
    refine ⟨hrun, ?_⟩
    unfold Session.log
    exact congrArg₂ (· ++ ·) hlog (congrArg Call.log hrun.calls_eq)

/-- Two programs that lack the same clause, one of them without places, and a text with parentheses and comments
that is printed without them. -/
theorem evaluate_same_printed :
    let place : Span := ⟨"a", 0, 9, 1, 1⟩
    let x (s : Option Span) : Expr := .var (.text "x") s
    let body (s : Option Span) : Expr := .case (x s) [⟨.literal (.int 1) s, x s, s⟩] s
    let p := ofDefinitions [⟨.text "f", .text "x", body none, none⟩]
    let q := ofDefinitions [⟨.text "f", .text "x", body (some place), some place⟩]
    let source := "(* one *) fun f x = (x)(**)+ 1"
    let text := "fun f x = x + 1\n"
    p.Genuine ∧ q.Genuine ∧ p.same q ∧
      (p.evaluate (.text "f") [.int 7] 1).outcome = .error (.of (.noMatchingClause 7) none) ∧
      (∃ s, (q.evaluate (.text "f") [.int 7] 1).outcome = .error (.of (.noMatchingClause 7) s)) ∧
      (∃ r, ofSource source "a" = .ok r ∧ r.format = .ok text) ∧
      ∀ f arguments limit, (Session.ofSource source "a" f arguments limit).run.Agrees False
        (Session.ofSource text "b" f arguments limit).run := by
  intro place x body p q source text
  have hname (s : String) : (Scalar.text s).IsName := fun _ => nofun
  have hbody (s : Option Span) : (body s).Genuine := by
    refine .case (.var (hname "x")) ?_ ?_
    · exact List.forall_mem_singleton.mpr .literal
    · exact List.forall_mem_singleton.mpr (.var (hname "x"))
  have hp : p.Genuine := List.forall_mem_singleton.mpr ⟨hname "f", hname "x", hbody none⟩
  have hq : q.Genuine := List.forall_mem_singleton.mpr ⟨hname "f", hname "x", hbody (some place)⟩
  have hsame : p.same q := by decide
  have hfails : p.evaluate (.text "f") [.int 7] 1 =
      ⟨[.node (.text "f") 7 [] none], .error (.of (.noMatchingClause 7) none)⟩ := by rfl
  have hprinted : ((ofSource source "a").toOption.bind fun r => r.format.toOption) = some text := by
    decide +kernel
  refine ⟨hp, hq, hsame, by rw [hfails], ?_, ?_⟩
  · let runtime : Runtime := ⟨1000, 10, by decide, by decide⟩
    have hagrees : (p.evaluate (.text "f") [.int 7] 1).Agrees False (q.evaluate (.text "f") [.int 7] 1) :=
      (evaluate_same.1 p q hp hq hsame runtime (.text "f") [.int 7] 1).1 .endless
    rw [hfails] at hagrees
    generalize q.evaluate (.text "f") [.int 7] 1 = r at hagrees
    cases hagrees with
    | fault hfault =>
      cases hfault with
      | error _ => exact ⟨_, rfl⟩
  · cases hread : ofSource source "a" with
    | error refusal =>
      rw [hread] at hprinted
      cases hprinted
    | ok r =>
      obtain ⟨written, hwritten, hagain⟩ := evaluate_same.2 source "a" r hread
      rw [hread, Except.toOption, Option.bind_some, hwritten] at hprinted
      cases hprinted
      exact ⟨⟨r, rfl, hwritten⟩, fun f arguments limit => (hagain "b" f arguments limit).1⟩

end Program

end Casewise
