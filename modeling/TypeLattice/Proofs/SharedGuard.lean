import TypeLattice.Proofs.Instances

/-!
# One guard for many questions

Whatever is asked with a guard, and wherever the comparison ends, the pairs in progress afterwards
are those from before. So a guard can be used again: asked one after the other with a guard that is
empty at first, questions have the answers that each has with a guard of its own.
-/
namespace TypeLattice

/-- What can be asked of types and values. -/
inductive Question where
  | equal (t u : Ty)
  | accepts (t u : Ty)
  | belongs (t : Ty) (v : Value)
  | equalValues (v w : Value)

namespace Question

/-- The comparison that answers a question with the guard it is given. -/
def ask (s : Store) : Question → Compare
  | .equal t u => s.equalsWith t u
  | .accepts t u => s.acceptsWith t u
  | .belongs t v => s.isInstanceWith t v
  | .equalValues v w => s.valuesEqualWith v w

/-- The answer with a guard of its own. -/
def answer (s : Store) : Question → Bool
  | .equal t u => s.equals t u
  | .accepts t u => s.accepts t u
  | .belongs t v => s.isInstance t v
  | .equalValues v w => s.valuesEqual v w

/-- Asks one question after the other with one guard. The store may be another one each time. Each
answer comes with the number of pairs that are in progress after it. -/
def askAll : List (Store × Question) → StateM (Guard ObjectId) (List (Bool × ℕ))
  | [] => return []
  | (s, q) :: rest => do
    let answer ← q.ask s
    let depth := (← get).depth
    return (answer, depth) :: (← askAll rest)

theorem keeps_ask (s : Store) (q : Question) (g : Guard ObjectId) : Keeps (q.ask s) g := by
  have hnodes := fun a b => (s.keeps_nodesEqual a b g).decides
  cases q with
  | equal t u => exact (Ty.decides_equalsWith fun a _ b _ => hnodes a b).keeps
  | accepts t u => exact s.keeps_acceptsWith t u g
  | belongs t v => exact s.keeps_isInstanceWith t v g
  | equalValues v w => exact (Value.decides_equalsWith v w fun a _ b _ => hnodes a b).keeps

theorem ask_eq (s : Store) (q : Question) (g : Guard ObjectId) :
    q.ask s g = (((q.ask s).run g).1, g) :=
  Prod.ext rfl (keeps_ask s q g)

theorem run_ask_empty (s : Store) (q : Question) : ((q.ask s).run {}).1 = q.answer s := by
  cases q <;> rfl

/-- Each question is asked with the guard that the first one was asked with. -/
theorem askAll_eq (qs : List (Store × Question)) (g : Guard ObjectId) :
    askAll qs g = (qs.map fun e => (((e.2.ask e.1).run g).1, g.depth), g) := by
  induction qs with
  | nil => rfl
  | cons e qs ih =>
    obtain ⟨s, q⟩ := e
    simp only [askAll, bind, StateT.bind, ask_eq s q g, get, getThe, MonadStateOf.get, StateT.get,
      pure, StateT.pure, ih, List.map_cons]

/-- A comparison leaves the guard as it was, whatever is in progress and whatever the answer. So
with one guard, empty at first, any questions are answered as with a new guard for each, and no pair
is in progress after any of them. -/
theorem comparisons_leave_guard :
    (∀ (s : Store) (q : Question) (g : Guard ObjectId), (q.ask s g).2 = g) ∧
    ∀ qs : List (Store × Question),
      askAll qs {} = (qs.map fun e => (e.2.answer e.1, 0), {}) := by
  refine ⟨keeps_ask, ?_⟩
  intro qs
  simp only [askAll_eq, run_ask_empty]
  rfl

end Question
end TypeLattice
