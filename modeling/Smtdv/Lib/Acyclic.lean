import Mathlib.Data.Set.Finite.Basic
import Mathlib.Logic.Relation
import Mathlib.Order.WellFoundedSet

/-! Relations without a cycle: in a finite set some element comes first, and some element last. -/
namespace Smtdv.Lib

variable {α : Type*} {before : α → α → Prop} {nodes : Set α}

def Acyclic (before : α → α → Prop) : Prop := ∀ a, ¬Relation.TransGen before a a

theorem Acyclic.swap (acyclic : Acyclic before) : Acyclic (Function.swap before) :=
  fun a cycle => acyclic a (Relation.transGen_swap.mp cycle)

theorem Acyclic.first (acyclic : Acyclic before) (finite : nodes.Finite) (filled : nodes.Nonempty) :
    ∃ a ∈ nodes, ∀ b ∈ nodes, ¬before b a := by
  have : IsStrictOrder α (Relation.TransGen before) :=
    {irrefl := acyclic, trans := fun _ _ _ => Relation.TransGen.trans}
  have founded : nodes.WellFoundedOn (Relation.TransGen before) := finite.wellFoundedOn
  obtain ⟨a,inside⟩ := filled
  obtain ⟨first,-,least⟩ := founded.has_min Set.univ ⟨⟨a,inside⟩,trivial⟩
  exact ⟨first,first.2,fun b member edge => least ⟨b,member⟩ trivial (.single edge)⟩

theorem Acyclic.last (acyclic : Acyclic before) (finite : nodes.Finite) (filled : nodes.Nonempty) :
    ∃ a ∈ nodes, ∀ b ∈ nodes, ¬before a b :=
  acyclic.swap.first finite filled

end Smtdv.Lib
