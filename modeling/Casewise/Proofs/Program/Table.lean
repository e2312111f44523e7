import Mathlib.Data.List.Forall2
import Casewise.Program

/-! Programs as tables: which definitions stand under which keys. -/
namespace Casewise.Program

variable {p : Program} {key : Name} {f : Definition} {fs : List Definition}
  {entries : List (Name × Definition)}

theorem entries_insert_of_not_mem (h : key ∉ p.keys) :
    (p.insert key f).entries = p.entries ++ [(key, f)] := by
  simp [insert, h]

private theorem entries_foldl_insert (h : ((p.entries ++ entries).map Prod.fst).Nodup) :
    (entries.foldl (fun p entry => p.insert entry.1 entry.2) p).entries = p.entries ++ entries := by
  induction entries generalizing p with
  | nil => simp
  | cons entry entries ih =>
    have hnew : entry.1 ∉ p.keys := by
      rw [List.map_append, List.nodup_append] at h
      intro hm
      exact h.2.2 _ hm entry.1 (by simp) rfl
    have hentries := entries_insert_of_not_mem (f := entry.2) hnew
    rw [List.foldl_cons, ih (by simpa [hentries] using h), hentries, List.append_assoc]
    rfl

theorem entries_ofList (h : (entries.map Prod.fst).Nodup) : (ofList entries).entries = entries :=
  entries_foldl_insert h

theorem keys_ofDefinitions (h : (fs.map Definition.name).Nodup) :
    (ofDefinitions fs).keys = fs.map Definition.name := by
  rw [keys, ofDefinitions, entries_ofList (by simpa [Function.comp_def] using h), List.map_map]
  rfl

theorem definitions_ofDefinitions (h : (fs.map Definition.name).Nodup) :
    (ofDefinitions fs).definitions = fs := by
  rw [definitions, ofDefinitions, entries_ofList (by simpa [Function.comp_def] using h), List.map_map]
  exact List.map_id fs

theorem find?_eq_none_iff : p.find? key = none ↔ key ∉ p.keys := by
  rw [find?, List.lookup_eq_none_iff, keys, List.mem_map]
  constructor
  · rintro h ⟨e, he, rfl⟩
    exact bne_iff_ne.mp (h e he) rfl
  · intro h e he
    exact bne_iff_ne.mpr fun hkey => h ⟨e, he, hkey.symm⟩

theorem mem_definitions_of_find? (h : p.find? key = some f) : f ∈ p.definitions := by
  obtain ⟨before, after, hentries, _⟩ := List.lookup_eq_some_iff.mp h
  rw [definitions, hentries]
  simp

/-- Tables with the same keys, and related definitions under them, have related definitions under any key. -/
theorem find?_of_forall₂ {q : Program} {R : Definition → Definition → Prop}
    (h : List.Forall₂ (fun e d => e.1 = d.1 ∧ R e.2 d.2) p.entries q.entries) (key : Name) :
    (p.find? key = none ∧ q.find? key = none) ∨
      ∃ f g, p.find? key = some f ∧ q.find? key = some g ∧ R f g := by
  unfold find?
  generalize p.entries = es, q.entries = ds at h
  induction h with
  | nil => exact Or.inl ⟨rfl, rfl⟩
  | @cons e d es ds hed _ ih =>
    obtain ⟨hkey, hR⟩ := hed
    rw [List.lookup_cons, List.lookup_cons, ← hkey]
    cases key == e.1 with
    | true => exact Or.inr ⟨e.2, d.2, rfl, rfl, hR⟩
    | false => exact ih

/-- What the definitions of two tables have in common, entry by entry. -/
theorem map_definitions_eq_of_forall₂ {α : Type} {q : Program} {F : Definition → α}
    (h : List.Forall₂ (fun e d => F e.2 = F d.2) p.entries q.entries) :
    p.definitions.map F = q.definitions.map F := by
  unfold definitions
  rw [List.map_map, List.map_map, ← List.forall₂_eq_eq_eq, List.forall₂_map_left_iff,
    List.forall₂_map_right_iff]
  exact h

end Casewise.Program
