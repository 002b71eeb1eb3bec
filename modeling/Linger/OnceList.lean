import Mathlib.Data.List.Perm.Basic
import Mathlib.Data.List.Nodup
import Mathlib.Data.List.Dedup

/-! Lists with nothing on them twice: what is on one is what it holds, whatever its order. -/
namespace OnceList

universe u v

structure Once (α : Type u) where
  list : List α
  once : list.Nodup
  deriving DecidableEq

namespace Once
variable {α : Type u} {β : Type v}

instance : Membership α (Once α) := ⟨fun held x => x ∈ held.list⟩

instance : EmptyCollection (Once α) := ⟨⟨[], List.nodup_nil⟩⟩

instance [DecidableEq α] (x : α) (held : Once α) : Decidable (x ∈ held) :=
  inferInstanceAs (Decidable (x ∈ held.list))

@[ext] theorem ext {held held' : Once α} (h : held.list = held'.list) : held = held' := by
  cases held
  cases held'
  cases h
  rfl

theorem mem_list {held : Once α} {x : α} : x ∈ held.list ↔ x ∈ held := Iff.rfl

@[simp] theorem mem_mk {list : List α} {once : list.Nodup} {x : α} :
    x ∈ (⟨list, once⟩ : Once α) ↔ x ∈ list := Iff.rfl

/-- Two that hold the same are the same in another order. -/
theorem perm {held held' : Once α} (h : ∀ x, x ∈ held ↔ x ∈ held') : held.list.Perm held'.list :=
  (List.perm_ext_iff_of_nodup held.once held'.once).mpr h

section Put
variable [DecidableEq α] {held : Once α} {x y : α} {on : Bool}

def without (held : Once α) (x : α) : Once α :=
  ⟨held.list.filter fun y => y ≠ x, held.once.filter _⟩

theorem mem_without : y ∈ held.without x ↔ y ∈ held ∧ y ≠ x := by
  rw [without, mem_mk, List.mem_filter, mem_list, decide_eq_true_iff]

/-- Without it, and with it last if it is to be there. -/
def putIn (held : Once α) (x : α) (on : Bool) : Once α :=
  if on then
    ⟨(held.without x).list ++ [x],
      (held.without x).once.append (List.nodup_singleton x) fun _ hy hx =>
        (mem_without.mp hy).2 (List.mem_singleton.mp hx)⟩
  else held.without x

end Put

/-- What some of it is, each something else. -/
def pick (held : Once α) (f : α → Option β) (apart : ∀ x y b, f x = some b → f y = some b → x = y) :
    Once β :=
  ⟨held.list.filterMap f, held.once.filterMap fun x y b hx hy => apart x y b hx hy⟩

theorem mem_pick {held : Once α} {f : α → Option β}
    {apart : ∀ x y b, f x = some b → f y = some b → x = y} {b : β} :
    b ∈ held.pick f apart ↔ ∃ x ∈ held, f x = some b := List.mem_filterMap

section Firsts
variable [DecidableEq α] {list : List α}

/-- Each thing on a list, the first time it is there. -/
def firsts (list : List α) : Once α :=
  ⟨list.reverse.dedup.reverse, List.nodup_reverse.mpr (List.nodup_dedup _)⟩

theorem mem_firsts {x : α} : x ∈ firsts list ↔ x ∈ list := by
  rw [firsts, mem_mk, List.mem_reverse, List.mem_dedup, List.mem_reverse]

end Firsts

end Once
end OnceList
