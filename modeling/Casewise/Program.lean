import Casewise.Expr.Outline
import Casewise.Outline.Listing

/-!
Programs: definitions under keys, in the order in which the keys came first. A key is what a call
looks up; as a rule it is the name of its definition.
-/
namespace Casewise

structure Program where
  entries : List (Name × Definition)
  nodup : (entries.map Prod.fst).Nodup

namespace Program

def empty : Program := ⟨[], .nil⟩

def keys (p : Program) : List Name := p.entries.map Prod.fst

def definitions (p : Program) : List Definition := p.entries.map Prod.snd

def find? (p : Program) (key : Name) : Option Definition := p.entries.lookup key

private def setEntry (key : Name) (f : Definition) (e : Name × Definition) :
    Name × Definition :=
  if e.1 = key then (key, f) else e

private theorem fst_setEntry (key : Name) (f : Definition) (e : Name × Definition) :
    (setEntry key f e).1 = e.1 := by
  unfold setEntry
  split <;> simp_all

/-- Puts a definition under a key. A key that is there already keeps its place. -/
def insert (p : Program) (key : Name) (f : Definition) : Program :=
  if h : key ∈ p.keys then
    ⟨p.entries.map (setEntry key f), by
      have : Prod.fst ∘ setEntry key f = Prod.fst := funext (fst_setEntry key f)
      rw [List.map_map, this]
      exact p.nodup⟩
  else
    ⟨p.entries ++ [(key, f)], by
      rw [List.map_append, List.nodup_append]
      refine ⟨p.nodup, by simp, fun a ha b hb => ?_⟩
      rintro rfl
      simp only [List.map_cons, List.map_nil, List.mem_singleton] at hb
      exact h (hb ▸ ha)⟩

/-- The program of the given entries. Of several with one key the last one counts. -/
def ofList (entries : List (Name × Definition)) : Program :=
  entries.foldl (fun p entry => p.insert entry.1 entry.2) empty

def ofDefinitions (fs : List Definition) : Program :=
  ofList (fs.map fun f => (f.name, f))

def describe (p : Program) : String :=
  "Program([" ++ ", ".intercalate (p.keys.map Scalar.quoted) ++ "])"

def outlines (p : Program) : List Outline := p.definitions.map Definition.outline

def dump (p : Program) (indent : Int) : Except Misuse String :=
  return String.join (← p.outlines.mapM (·.dump indent))

/-- Programs are the same if they have the same keys in the same order, and the same definitions
up to spans. -/
def same (p q : Program) : Bool :=
  p.keys = q.keys ∧ (p.definitions.zip q.definitions).all fun (f, g) => f.same g

/-- The deepest nesting of a body, 1 in a program without functions. -/
def nesting (p : Program) : Nat :=
  ((p.definitions.map (·.body.depth)).max?).getD 1

end Program

end Casewise
