import Casewise.Proofs.Program.Preorder
import Casewise.Proofs.Program.Safety

/-! A listing identifies the program. It has a line for each node, in preorder, and the line tells how deep the
node stands, what it is and which values it holds. Programs that are read from texts have the same listing
exactly if they are the same up to spans. -/
namespace Casewise

/-! What a source text can hold is plain. -/

theorem Text.isPlain_of_isWordChar {c : Char} (h : Token.isWordChar c) : IsPlain c := by
  have hbounds : c.toNat = 0x5f ∨ (0x30 ≤ c.toNat ∧ c.toNat ≤ 0x39) ∨ (0x41 ≤ c.toNat ∧ c.toNat ≤ 0x5a) ∨
      (0x61 ≤ c.toNat ∧ c.toNat ≤ 0x7a) := by
    rw [Token.isWordChar, Char.isAlphanum, Bool.or_eq_true, Bool.or_eq_true] at h
    rcases h with (halpha | hdigit) | hunderscore
    · have := Token.isAlpha_iff.mp halpha
      omega
    · have := Token.isDigit_iff.mp hdigit
      omega
    · rw [of_decide_eq_true hunderscore]
      exact Or.inl rfl
  have hne {d : Char} (hd : d.toNat < 0x30 ∨ d.toNat = 0x5c) : c ≠ d := by
    rintro rfl
    omega
  exact ⟨by omega, by omega, hne (by decide), hne (by decide), hne (by decide)⟩

namespace Scalar

variable {v w : Scalar}

theorem IsIdentifier.isPlain (h : v.IsIdentifier) : v.IsPlain := by
  obtain ⟨c, s, rfl, hc, hs, _⟩ := h
  refine .text fun d hd => Text.isPlain_of_isWordChar ?_
  rw [String.toList_ofList, List.mem_cons] at hd
  rcases hd with rfl | hd
  · simp [Token.isWordChar, Char.isAlphanum, hc]
  · exact hs d hd

theorem IsNumeral.isPlain (h : v.IsNumeral) : v.IsPlain := by
  obtain ⟨n, rfl, _⟩ := h
  exact .int n

theorem IsIdentifier.same_iff (h : v.IsIdentifier) : v.same w ↔ v = w := by
  obtain ⟨c, s, rfl, _⟩ := h
  exact decide_eq_true_iff

theorem IsNumeral.same_iff (hv : v.IsNumeral) (hw : w.IsNumeral) : v.same w ↔ v = w := by
  obtain ⟨m, rfl, _⟩ := hv
  obtain ⟨n, rfl, _⟩ := hw
  change ((m : Int) == n) = true ↔ _
  rw [beq_iff_eq, Scalar.int.injEq]

end Scalar

namespace Node

/-- What can be read from a source text. -/
def WellFormed : Node → Prop
  | definition f => f.WellFormed
  | expression e => e.WellFormed
  | clause c => c.pattern.WellFormed ∧ c.body.WellFormed
  | pattern p => p.WellFormed

variable {n : Node}

theorem WellFormed.values_plain (h : n.WellFormed) : ∀ v ∈ n.values, v.IsPlain := by
  have hone {v : Scalar} (hv : v.IsPlain) : ∀ w ∈ [v], w.IsPlain := by simpa using hv
  cases n with
  | definition f =>
    have hname := Definition.WellFormed.name h
    have hparam := Definition.WellFormed.param h
    simpa [values] using ⟨hname.isPlain, hparam.isPlain⟩
  | clause c => simp [values]
  | pattern p =>
    change p.WellFormed at h
    cases h with
    | literal hv => exact hone hv.isPlain
    | wildcard => simp [values]
  | expression e =>
    change e.WellFormed at h
    cases h with
    | int hv => exact hone hv.isPlain
    | var hx => exact hone hx.isPlain
    | call hf _ => exact hone hf.isPlain
    | case _ _ _ _ => simp [values]
    | binary hoperator _ _ =>
      refine hone (.text ?_)
      simp only [List.mem_cons, List.not_mem_nil, or_false] at hoperator
      rcases hoperator with rfl | rfl | rfl <;> simp [Text.IsPlain]

theorem WellFormed.line_plain (h : n.WellFormed) (depth : Nat) : (n.line depth).IsPlain := by
  have hlabel : n.label.toList ≠ [] ∧ ∀ c ∈ n.label.toList, c.isAlpha := by
    cases n with
    | definition f | clause c => exact ⟨by simp [label], by simp [label]⟩
    | pattern p =>
      change p.WellFormed at h
      cases h with
      | literal _ | wildcard => exact ⟨by simp [label], by simp [label]⟩
    | expression e =>
      change e.WellFormed at h
      cases h with
      | _ => exact ⟨by simp [label], by simp [label]⟩
  exact ⟨hlabel.1, hlabel.2, h.values_plain⟩

theorem WellFormed.preorder (h : n.WellFormed) (depth : Nat) : ∀ x ∈ n.preorder depth, x.2.WellFormed := by
  have hnode {m : Node} (hm : m.WellFormed) (depth : Nat)
      (hchildren : ∀ k ∈ m.children, ∀ x ∈ k.preorder (depth + 1), x.2.WellFormed) :
      ∀ x ∈ m.preorder depth, x.2.WellFormed := by
    rw [preorder_eq, List.forall_mem_cons]
    refine ⟨hm, fun x hx => ?_⟩
    obtain ⟨k, hk, hx⟩ := List.mem_flatMap.mp hx
    exact hchildren k hk x hx
  have hpattern {p : Pattern} (hp : p.WellFormed) (depth : Nat) :
      ∀ x ∈ (pattern p).preorder depth, x.2.WellFormed :=
    hnode (m := pattern p) hp depth (by simp [Node.children])
  have hexpression {e : Expr} (he : e.WellFormed) (depth : Nat) :
      ∀ x ∈ (expression e).preorder depth, x.2.WellFormed := by
    induction he generalizing depth with
    | int hv => exact hnode (m := .expression _) (.int hv) depth (by simp [Node.children])
    | var hx => exact hnode (m := .expression _) (.var hx) depth (by simp [Node.children])
    | binary hoperator hl hr ihl ihr =>
      refine hnode (m := .expression _) (.binary hoperator hl hr) depth ?_
      simpa only [Node.children, List.forall_mem_cons] using ⟨ihl (depth + 1), ihr (depth + 1), by simp⟩
    | call hf ha ih =>
      refine hnode (m := .expression _) (.call hf ha) depth ?_
      simpa only [Node.children, List.forall_mem_cons] using ⟨ih (depth + 1), by simp⟩
    | case hs hcs hpatterns hbodies ihs ihbodies =>
      refine hnode (m := .expression _) (.case hs hcs hpatterns hbodies) depth ?_
      simp only [Node.children, List.forall_mem_cons, List.forall_mem_map]
      refine ⟨ihs (depth + 1), fun c hc => ?_⟩
      refine hnode (m := .clause c) ⟨hpatterns c hc, hbodies c hc⟩ (depth + 1) ?_
      simpa only [Node.children, List.forall_mem_cons] using
        ⟨hpattern (hpatterns c hc) (depth + 2), ihbodies c hc (depth + 2), by simp⟩
  cases n with
  | pattern p => exact hpattern h depth
  | expression e => exact hexpression h depth
  | clause c =>
    refine hnode h depth ?_
    simpa only [Node.children, List.forall_mem_cons] using
      ⟨hpattern h.1 (depth + 1), hexpression h.2 (depth + 1), by simp⟩
  | definition f =>
    refine hnode h depth ?_
    simpa only [Node.children, List.forall_mem_cons] using
      ⟨hexpression (Definition.WellFormed.body h) (depth + 1), by simp⟩

/-- What the lines of a node and of those below it show. -/
def contents (depth : Nat) (n : Node) : List (Nat × String × List Scalar) :=
  (linesOf (n.preorder depth)).map Outline.Line.content

theorem contents_eq (depth : Nat) (n : Node) :
    n.contents depth = (depth, n.label, n.values) :: n.children.flatMap (contents (depth + 1)) := by
  rw [contents, linesOf_preorder, List.map_cons, List.map_flatMap]
  rfl

end Node

/-- Nothing but lines that are at most so deep can come first. -/
def EndsBy (depth : Nat) (rest : List (Nat × String × List Scalar)) : Prop := ∀ x ∈ rest.head?, x.1 ≤ depth

section

variable {d k : Nat} {rest rest' : List (Nat × String × List Scalar)} {p q : Pattern} {e e' : Expr}
  {cs ds : List (Clause Expr)}

theorem EndsBy.mono (h : EndsBy d rest) (hle : d ≤ k) : EndsBy k rest :=
  fun x hx => Nat.le_trans (h x hx) hle

theorem endsBy_contents (n : Node) (h : d ≤ k) : EndsBy k (n.contents d ++ rest) := by
  rw [Node.contents_eq]
  rintro x ⟨⟩
  exact h

theorem endsBy_flatMap (ns : List Node) (h : d ≤ k) (hrest : EndsBy k rest) :
    EndsBy k (ns.flatMap (Node.contents d) ++ rest) := by
  cases ns with
  | nil => exact hrest
  | cons n ns =>
    rw [List.flatMap_cons, List.append_assoc]
    exact endsBy_contents n h

theorem cons_append_eq_iff {α : Type} {a b : α} {as bs r r' : List α} :
    a :: as ++ r = b :: bs ++ r' ↔ a = b ∧ as ++ r = bs ++ r' := by
  rw [List.cons_append, List.cons_append, List.cons.injEq]

namespace Pattern.WellFormed

theorem contents_iff (hp : p.WellFormed) (hq : q.WellFormed) :
    (Node.pattern p).contents d ++ rest = (Node.pattern q).contents d ++ rest' ↔ p.Same q ∧ rest = rest' := by
  rw [Node.contents_eq, Node.contents_eq, cons_append_eq_iff]
  cases hp with
  | literal hv =>
    cases hq with
    | literal hw => simp [Node.label, Node.values, Node.children, same_literal_iff, hv.same_iff hw]
    | wildcard => exact iff_of_false (by simp [Node.label]) (by rintro ⟨⟨⟩, _⟩)
  | wildcard =>
    cases hq with
    | literal hw => exact iff_of_false (by simp [Node.label]) (by rintro ⟨⟨⟩, _⟩)
    | wildcard => simp [Node.label, Node.values, Node.children, same_wildcard]

end Pattern.WellFormed

/-- Two expressions are told apart by the lines of one of them, whatever comes behind. -/
def Expr.ToldApart (e e' : Expr) : Prop :=
  ∀ d rest rest', EndsBy d rest → EndsBy d rest' →
    ((Node.expression e).contents d ++ rest = (Node.expression e').contents d ++ rest' ↔ e.same e' ∧ rest = rest')

/-- The lines of clauses tell them apart, if the lines of their bodies do. The first line that is not as deep
ends them. -/
theorem clauses_contents_iff (hcs : ∀ c ∈ cs, c.pattern.WellFormed) (hds : ∀ c ∈ ds, c.pattern.WellFormed)
    (hbodies : ∀ c ∈ cs, ∀ c' ∈ ds, c.body.ToldApart c'.body) (hrest : EndsBy d rest) (hrest' : EndsBy d rest') :
    (cs.map Node.clause).flatMap (Node.contents (d + 1)) ++ rest =
      (ds.map Node.clause).flatMap (Node.contents (d + 1)) ++ rest' ↔ SameClauses cs ds ∧ rest = rest' := by
  have hdeep {c : Clause Expr} {more more' : List (Nat × String × List Scalar)} (h : EndsBy d more) :
      more ≠ (Node.clause c).contents (d + 1) ++ more' := by
    rintro rfl
    rw [Node.contents_eq] at h
    exact absurd (h _ rfl) (by simp)
  induction cs generalizing ds with
  | nil =>
    cases ds with
    | nil => simp [SameClauses.nil]
    | cons c' ds =>
      rw [List.map_cons, List.flatMap_cons, List.append_assoc]
      exact iff_of_false (hdeep hrest) (by rintro ⟨⟨⟩, _⟩)
  | cons c cs ih =>
    cases ds with
    | nil =>
      rw [List.map_cons, List.flatMap_cons, List.append_assoc]
      exact iff_of_false (fun h => hdeep hrest' h.symm) (by rintro ⟨⟨⟩, _⟩)
    | cons c' ds =>
      obtain ⟨hc, hcs⟩ := List.forall_mem_cons.mp hcs
      obtain ⟨hc', hds⟩ := List.forall_mem_cons.mp hds
      have hbody := hbodies c List.mem_cons_self c' List.mem_cons_self
      have hlater : _ ↔ _ := ih hcs hds fun b hb b' hb' =>
        hbodies b (List.mem_cons_of_mem c hb) b' (List.mem_cons_of_mem c' hb')
      have hends {bs : List (Clause Expr)} {more : List (Nat × String × List Scalar)} (h : EndsBy d more) :
          EndsBy (d + 2) ((bs.map Node.clause).flatMap (Node.contents (d + 1)) ++ more) :=
        endsBy_flatMap _ (by omega) (h.mono (by omega))
      have hclause (b : Clause Expr) : (Node.clause b).contents (d + 1) =
          (d + 1, "Clause", []) ::
            ((Node.pattern b.pattern).contents (d + 2) ++ (Node.expression b.body).contents (d + 2)) := by
        rw [Node.contents_eq]
        simp [Node.children, Node.label, Node.values]
      simp only [List.map_cons, List.flatMap_cons, List.append_assoc]
      rw [hclause, hclause, cons_append_eq_iff, List.append_assoc, List.append_assoc, hc.contents_iff hc',
        hbody _ _ _ (hends hrest) (hends hrest'), hlater, sameClauses_cons_iff]
      simp [and_assoc]

/-- The lines of a well-formed expression tell it apart from every other one. -/
theorem Expr.WellFormed.toldApart (he : e.WellFormed) (he' : e'.WellFormed) : e.ToldApart e' := by
  induction he generalizing e' with
  | int hv =>
    intro d rest rest' hrest hrest'
    rw [Node.contents_eq, Node.contents_eq, cons_append_eq_iff]
    cases he' with
    | int hw => simp [Node.label, Node.values, Node.children, same_int_iff, hv.same_iff hw]
    | _ => exact iff_of_false (by simp [Node.label]) (by rintro ⟨⟨⟩, _⟩)
  | var hx =>
    intro d rest rest' hrest hrest'
    rw [Node.contents_eq, Node.contents_eq, cons_append_eq_iff]
    cases he' with
    | var hy => simp [Node.label, Node.values, Node.children, same_var_iff, hx.same_iff]
    | _ => exact iff_of_false (by simp [Node.label]) (by rintro ⟨⟨⟩, _⟩)
  | @binary _ l r _ _ _ _ ihl ihr =>
    intro d rest rest' hrest hrest'
    rw [Node.contents_eq, Node.contents_eq, cons_append_eq_iff]
    cases he' with
    | @binary _ l' r' _ _ hl hr =>
      have hright := ihr hr (d + 1) rest rest' (hrest.mono (by omega)) (hrest'.mono (by omega))
      have hleft := ihl hl (d + 1) ((Node.expression r).contents (d + 1) ++ rest)
        ((Node.expression r').contents (d + 1) ++ rest') (endsBy_contents _ (Nat.le_refl _))
        (endsBy_contents _ (Nat.le_refl _))
      simp only [Node.label, Node.values, Node.children, List.flatMap_cons, List.flatMap_nil, List.append_nil,
        List.append_assoc]
      rw [hleft, hright, same_binary_iff]
      simp [and_assoc]
    | _ => exact iff_of_false (by simp [Node.label]) (by rintro ⟨⟨⟩, _⟩)
  | call hf _ ih =>
    intro d rest rest' hrest hrest'
    rw [Node.contents_eq, Node.contents_eq, cons_append_eq_iff]
    cases he' with
    | call _ ha =>
      have hargument := ih ha (d + 1) rest rest' (hrest.mono (by omega)) (hrest'.mono (by omega))
      simp only [Node.label, Node.values, Node.children, List.flatMap_cons, List.flatMap_nil, List.append_nil]
      rw [hargument, same_call_iff, hf.same_iff]
      simp [and_assoc]
    | _ => exact iff_of_false (by simp [Node.label]) (by rintro ⟨⟨⟩, _⟩)
  | @case s cs _ _ _ hpatterns _ ihs ihbodies =>
    intro d rest rest' hrest hrest'
    rw [Node.contents_eq, Node.contents_eq, cons_append_eq_iff]
    cases he' with
    | @case s' ds _ hs _ hpatterns' hbodies' =>
      have hclauses := clauses_contents_iff hpatterns hpatterns'
        (fun c hc c' hc' => ihbodies c hc (hbodies' c' hc')) hrest hrest'
      have hscrutinee := ihs hs (d + 1) ((cs.map Node.clause).flatMap (Node.contents (d + 1)) ++ rest)
        ((ds.map Node.clause).flatMap (Node.contents (d + 1)) ++ rest')
        (endsBy_flatMap _ (Nat.le_refl _) (hrest.mono (by omega)))
        (endsBy_flatMap _ (Nat.le_refl _) (hrest'.mono (by omega)))
      simp only [Node.label, Node.values, Node.children, List.flatMap_cons, List.append_assoc]
      rw [hscrutinee, hclauses, same_case_iff]
      simp [and_assoc]
    | _ => exact iff_of_false (by simp [Node.label]) (by rintro ⟨⟨⟩, _⟩)

theorem definitions_contents_iff {fs gs : List Definition} (hfs : ∀ f ∈ fs, f.WellFormed)
    (hgs : ∀ g ∈ gs, g.WellFormed) :
    (fs.map Node.definition).flatMap (Node.contents 0) = (gs.map Node.definition).flatMap (Node.contents 0) ↔
      List.Forall₂ (fun f g => f.same g) fs gs := by
  have hcons (f : Definition) (more : List (Nat × String × List Scalar)) :
      (Node.definition f).contents 0 ++ more =
        (0, "FunctionDef", [f.name, f.param]) :: ((Node.expression f.body).contents 1 ++ more) := by
    rw [Node.contents_eq]
    simp [Node.children, Node.label, Node.values]
  induction fs generalizing gs with
  | nil =>
    cases gs with
    | nil => exact iff_of_true rfl .nil
    | cons g gs =>
      rw [List.map_cons, List.flatMap_cons, hcons]
      exact iff_of_false (by simp) (by rintro ⟨⟩)
  | cons f fs ih =>
    cases gs with
    | nil =>
      rw [List.map_cons, List.flatMap_cons, hcons]
      exact iff_of_false (by simp) (by rintro ⟨⟩)
    | cons g gs =>
      obtain ⟨hf, hfs⟩ := List.forall_mem_cons.mp hfs
      obtain ⟨hg, hgs⟩ := List.forall_mem_cons.mp hgs
      have hends (hs : List Definition) : EndsBy 1 ((hs.map Node.definition).flatMap (Node.contents 0)) := by
        have hnone : EndsBy 1 [] := by simp [EndsBy]
        have hrest := endsBy_flatMap (hs.map Node.definition) (Nat.zero_le 1) hnone
        rwa [List.append_nil] at hrest
      have hbody := hf.body.toldApart hg.body 1 _ _ (hends fs) (hends gs)
      have hlater : _ ↔ _ := ih hfs hgs
      simp only [List.map_cons, List.flatMap_cons]
      rw [hcons, hcons, List.cons.injEq, hbody, hlater, List.forall₂_cons, Definition.same_iff,
        hf.name.same_iff, hf.param.same_iff]
      simp [and_assoc]

end

/-! From the text of a listing back to what its lines show. -/

namespace Outline.Line

variable {ls ms : List Line}

/-- A plain line without its end. -/
def bare (l : Line) : List Char := List.replicate (2 * l.depth) ' ' ++ l.heading.toList

theorem toList_render_zero (l : Line) : (l.render 0).toList = l.bare ++ ['\n'] := by
  rw [render_zero]
  simp [bare]

theorem IsPlain.lineFeed_not_mem_bare {l : Line} (h : l.IsPlain) : '\n' ∉ l.bare := by
  rw [bare, List.mem_append]
  rintro (hmargin | hheading)
  · exact absurd (List.eq_of_mem_replicate hmargin) (by decide)
  · exact h.lineFeed_not_mem hheading

theorem contents_eq_of_bare (hls : ∀ l ∈ ls, l.IsPlain) (hms : ∀ m ∈ ms, m.IsPlain)
    (h : ls.map bare = ms.map bare) : ls.map content = ms.map content := by
  induction ls generalizing ms with
  | nil =>
    cases ms with
    | nil => rfl
    | cons m ms => cases h
  | cons l ls ih =>
    cases ms with
    | nil => cases h
    | cons m ms =>
      obtain ⟨hl, hls⟩ := List.forall_mem_cons.mp hls
      obtain ⟨hm, hms⟩ := List.forall_mem_cons.mp hms
      obtain ⟨hbare, hrest⟩ := List.cons.inj h
      have hrender : l.render 0 = m.render 0 := by
        rw [← String.toList_inj, toList_render_zero, toList_render_zero, hbare]
      rw [List.map_cons, List.map_cons, hl.content_eq_of_render hm hrender, ih hls hms hrest]

/-- Listings of plain lines are the same exactly if their lines show the same. -/
theorem join_render_eq_iff (hls : ∀ l ∈ ls, l.IsPlain) (hms : ∀ m ∈ ms, m.IsPlain) :
    String.join (ls.map (·.render 0)) = String.join (ms.map (·.render 0)) ↔ ls.map content = ms.map content := by
  constructor
  · intro h
    have hlists (ks : List Line) : (String.join (ks.map (·.render 0))).toList =
        (ks.map bare).flatMap (· ++ ['\n']) := by
      rw [String.toList_join, List.flatMap_map, List.flatMap_map]
      exact List.flatMap_congr fun l _ => toList_render_zero l
    have hbare {ks : List Line} (hks : ∀ k ∈ ks, k.IsPlain) : ∀ s ∈ ks.map bare, '\n' ∉ s := by
      rw [List.forall_mem_map]
      exact fun k hk => (hks k hk).lineFeed_not_mem_bare
    have hjoined := congrArg String.toList h
    rw [hlists, hlists] at hjoined
    exact contents_eq_of_bare hls hms (lines_inj (hbare hls) (hbare hms) hjoined)
  · intro h
    -- a line is written from what it shows
    have hcontent (ks : List Line) : ks.map (·.render 0) =
        (ks.map content).map fun c => (Line.mk c.1 c.2.1 c.2.2 none).render 0 := by
      rw [List.map_map]
      rfl
    rw [hcontent, hcontent, h]

end Outline.Line

namespace Program

variable {p q : Program} {source source' file file' : String}

theorem WellFormed.same_iff (hp : p.WellFormed) (hq : q.WellFormed) :
    p.same q ↔ List.Forall₂ (fun f g => f.same g) p.definitions q.definitions := by
  have hnames {fs gs : List Definition} (hfs : ∀ f ∈ fs, f.WellFormed)
      (h : List.Forall₂ (fun f g => f.same g) fs gs) : fs.map Definition.name = gs.map Definition.name := by
    induction h with
    | nil => rfl
    | cons hsame _ ih =>
      obtain ⟨hf, hfs⟩ := List.forall_mem_cons.mp hfs
      have hname := hf.name.same_iff.mp (Definition.same_iff.mp hsame).1
      rw [List.map_cons, List.map_cons, hname, ih hfs]
  unfold same
  rw [decide_eq_true_iff, hp.keys, hq.keys, List.all_eq_true]
  constructor
  · rintro ⟨hkeys, hall⟩
    have hlength := congrArg List.length hkeys
    rw [List.length_map, List.length_map] at hlength
    exact List.forall₂_iff_zip.mpr ⟨hlength, fun {f g} hfg => hall (f, g) hfg⟩
  · intro h
    exact ⟨hnames hp.definitions h, fun x hx => (List.forall₂_iff_zip.mp h).2 hx⟩

theorem WellFormed.dump_eq (h : p.WellFormed) :
    p.dump 0 = .ok (String.join ((linesOf p.preorder).map (·.render 0))) := by
  have hall (fs : List Definition) (hfs : ∀ f ∈ fs, f.WellFormed) :
      ∃ listings, (fs.map Definition.outline).mapM (·.dump 0) = .ok listings ∧ String.join listings =
        String.join ((linesOf (fs.flatMap fun f => Node.preorder 0 (.definition f))).map (·.render 0)) := by
    induction fs with
    | nil => exact ⟨[], rfl, rfl⟩
    | cons f fs ih =>
      obtain ⟨hf, hfs⟩ := List.forall_mem_cons.mp hfs
      obtain ⟨listings, hlistings, hjoin⟩ := ih hfs
      have hfirst : f.outline.dump 0 =
          .ok (String.join ((linesOf ((Node.definition f).preorder 0)).map (·.render 0))) := by
        rw [Outline.dump, if_pos hf.isFilled, hf.lines]
      refine ⟨_, by rw [List.map_cons, List.mapM_cons, hfirst, hlistings]; rfl, ?_⟩
      rw [String.join_cons, hjoin, ← String.join_append, ← List.map_append]
      simp [linesOf]
  obtain ⟨listings, hlistings, hjoin⟩ := hall p.definitions h.definitions
  rw [dump, outlines, hlistings]
  exact congrArg Except.ok hjoin

theorem WellFormed.lines_plain (h : p.WellFormed) : ∀ l ∈ linesOf p.preorder, l.IsPlain := by
  intro l hl
  obtain ⟨x, hx, rfl⟩ := List.mem_map.mp hl
  obtain ⟨f, hf, hx⟩ := List.mem_flatMap.mp hx
  have hdefinition : (Node.definition f).WellFormed := h.definitions f hf
  exact (hdefinition.preorder 0 x hx).line_plain x.1

/-- The listings of two programs that are read from texts are the same exactly if the programs are, up to spans. A
listing has one line for each node, in preorder, with two blanks for each level. -/
theorem dump_identifies (hp : ofSource source file = .ok p) (hq : ofSource source' file' = .ok q) :
    (p.dump 0 = q.dump 0 ↔ p.same q) ∧
    p.dump 0 = .ok (String.join (p.preorder.map fun (depth, n) =>
      String.ofList (List.replicate (2 * depth) ' ') ++ (n.line depth).heading ++ "\n")) ∧
    ∀ depth n, (depth, n) ∈ p.preorder → '\n' ∉ (n.line depth).heading.toList ∧
      ∃ c s, (n.line depth).heading.toList = c :: s ∧ c.isAlpha := by
  have hpw := wellFormed_of_ofSource hp
  have hqw := wellFormed_of_ofSource hq
  have hcontents (r : Program) : (linesOf r.preorder).map Outline.Line.content =
      (r.definitions.map Node.definition).flatMap (Node.contents 0) := by
    rw [preorder, linesOf, List.map_flatMap, List.map_flatMap, List.flatMap_map]
    rfl
  refine ⟨?_, ?_, fun depth n hn => ?_⟩
  · rw [hpw.dump_eq, hqw.dump_eq, Except.ok.injEq, Outline.Line.join_render_eq_iff hpw.lines_plain hqw.lines_plain,
      hcontents, hcontents, definitions_contents_iff hpw.definitions hqw.definitions, hpw.same_iff hqw]
  · rw [hpw.dump_eq, linesOf, List.map_map]
    congr 2
    exact List.map_congr_left fun x _ => Outline.Line.render_zero _
  · have hplain := hpw.lines_plain (n.line depth) (List.mem_map.mpr ⟨(depth, n), hn, rfl⟩)
    exact ⟨hplain.lineFeed_not_mem, hplain.head_heading⟩

/-- Another layout has the same listing; a clause that is moved into the body of the one before it has another,
which differs from the first in margins only. -/
theorem dump_identifies_clauses :
    let source := "fun f x = case x in 0 => case x in 1 => 2 | _ => 3"
    let spaced := "fun f x =\n  (case x in 0 => case (x) in 1 => 2 | _ => 3)"
    let grouped := "fun f x = case x in 0 => (case x in 1 => 2) | _ => 3"
    ∃ p q r, ofSource source "a" = .ok p ∧ ofSource spaced "b" = .ok q ∧ ofSource grouped "a" = .ok r ∧
      p.dump 0 = q.dump 0 ∧ p.same q ∧ p.dump 0 ≠ r.dump 0 ∧ ¬ p.same r ∧
      p.preorder.length = 13 ∧ r.preorder.length = 13 := by
  intro source spaced grouped
  have hchecks : ((ofSource source "a").toOption.bind fun p => (ofSource spaced "b").toOption.bind fun q =>
      (ofSource grouped "a").toOption.map fun r =>
        (p.same q, p.same r, p.preorder.length, r.preorder.length)) = some (true, false, 13, 13) := by
    decide +kernel
  cases hp : ofSource source "a" with
  | error x =>
    rw [hp] at hchecks
    cases hchecks
  | ok p =>
    cases hq : ofSource spaced "b" with
    | error x =>
      rw [hp, hq] at hchecks
      cases hchecks
    | ok q =>
      cases hr : ofSource grouped "a" with
      | error x =>
        rw [hp, hq, hr] at hchecks
        cases hchecks
      | ok r =>
        rw [hp, hq, hr] at hchecks
        obtain ⟨hsame, hother, hp13, hr13⟩ : p.same q = true ∧ p.same r = false ∧ p.preorder.length = 13 ∧
            r.preorder.length = 13 := by simpa [Except.toOption] using hchecks
        have hnot : ¬ p.same r := by simp [hother]
        obtain ⟨hequal, _⟩ := dump_identifies hp hq
        obtain ⟨hdifferent, _⟩ := dump_identifies hp hr
        exact ⟨p, q, r, rfl, rfl, rfl, hequal.mpr hsame, hsame, mt hdifferent.mp hnot, hnot, hp13, hr13⟩

end Program

end Casewise
