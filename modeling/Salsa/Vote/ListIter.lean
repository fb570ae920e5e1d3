import Mathlib.Data.List.Basic

/-!
# Salsa.Vote.ListIter — the iterator over a list of a vote state

`ListViewIter` of `vote/src/vote_state_view/list_view.rs`. Each end counts the items that it has
yielded, and only `size_hint` looks at both counts.
-/

namespace Salsa.ListView

open List

structure ListViewIter (Item : Type) where
  index : ℕ
  revIndex : ℕ
  view : List Item

/-- The end of the list at which an item is asked for. -/
inductive End where
  | front
  | back
deriving DecidableEq, Repr

variable {Item : Type}

namespace ListViewIter

def intoIter (view : List Item) : ListViewIter Item := ⟨0, 0, view⟩

variable (self : ListViewIter Item)

def next : Option Item × ListViewIter Item :=
  if self.index < self.view.length then
    (self.view[self.index]?, { self with index := self.index + 1 })
  else (none, self)

def nextBack : Option Item × ListViewIter Item :=
  if self.revIndex < self.view.length then
    (self.view[self.view.length - self.revIndex - 1]?, { self with revIndex := self.revIndex + 1 })
  else (none, self)

def sizeHint : ℕ := self.view.length - (self.index + self.revIndex)

def call : End → Option Item × ListViewIter Item
  | .front => self.next
  | .back => self.nextBack

/-- What the calls return, and the size hint after each of them. -/
def run (self : ListViewIter Item) : List End → List (Option Item × ℕ)
  | [] => []
  | e :: calls => ((self.call e).1, (self.call e).2.sizeHint) :: (self.call e).2.run calls

end ListViewIter

open ListViewIter

/-- The item at one end of the items still to come, and those that come after it. -/
def yield : End → List Item → Option Item × List Item
  | .front, items => (items.head?, items.tail)
  | .back, items => (items.getLast?, items.dropLast)

/-- The calls on a lawful iterator, which yields each item once. -/
def lawful : List End → List Item → List (Option Item × ℕ)
  | [], _ => []
  | e :: calls, items =>
      ((yield e items).1, (yield e items).2.length) :: lawful calls (yield e items).2

/-- A call that is lawful by itself. -/
theorem run_cons_iff {self self' : ListViewIter Item} {items items' : List Item} {e : End}
    {calls : List End} {item : Option Item} (hcall : self.call e = (item, self'))
    (hyield : yield e items = (item, items')) (hhint : self'.sizeHint = items'.length) :
    self.run (e :: calls) = lawful (e :: calls) items ↔ self'.run calls = lawful calls items' := by
  rw [run, lawful, hcall, hyield, hhint, cons.injEq, and_iff_right rfl]

/-- The iterator in mid-course, with the items that each end has yielded. -/
theorem run_eq_iff {front items back : List Item} {calls : List End} {view : List Item}
    (hview : view = front ++ (items ++ back)) :
    (⟨front.length, back.length, view⟩ : ListViewIter Item).run calls = lawful calls items ↔
      min (front.length + calls.count .front) view.length +
        min (back.length + calls.count .back) view.length ≤ view.length := by
  have hlen : view.length = front.length + (items.length + back.length) := by simp [hview]
  induction calls generalizing front items back with
  | nil =>
    rw [count_nil, count_nil]
    exact iff_of_true rfl (by omega)
  | cons e calls ih =>
    cases e with
    | front =>
      rw [count_cons_self, count_cons_of_ne (by decide)]
      cases items with
      | nil =>
        rw [length_nil] at hlen
        by_cases hend : front.length < view.length
        · -- an item that the other end has yielded comes again
          refine iff_of_false (fun h => ?_) (by omega)
          simp [run, lawful, call, ListViewIter.next, yield, hend] at h
        · have hcall : (⟨front.length, back.length, view⟩ : ListViewIter Item).call .front =
              (none, ⟨front.length, back.length, view⟩) := if_neg hend
          refine (run_cons_iff hcall rfl ?_).trans ((ih hview hlen).trans (by omega))
          simp [sizeHint]
          omega
      | cons a items =>
        have hcall : (⟨front.length, back.length, view⟩ : ListViewIter Item).call .front =
            (some a, ⟨(front ++ [a]).length, back.length, view⟩) := by
          simp [call, ListViewIter.next, hview]
        have hview' : view = (front ++ [a]) ++ (items ++ back) := by simp [hview]
        rw [length_cons] at hlen
        refine (run_cons_iff hcall rfl ?_).trans ((ih hview' ?_).trans ?_)
        all_goals
          simp [sizeHint]
          omega
    | back =>
      rw [count_cons_self, count_cons_of_ne (by decide)]
      rcases eq_nil_or_concat' items with rfl | ⟨items, a, rfl⟩
      · rw [length_nil] at hlen
        by_cases hend : back.length < view.length
        · refine iff_of_false (fun h => ?_) (by omega)
          simp [run, lawful, call, nextBack, yield, hend] at h
          omega
        · have hcall : (⟨front.length, back.length, view⟩ : ListViewIter Item).call .back =
              (none, ⟨front.length, back.length, view⟩) := if_neg hend
          refine (run_cons_iff hcall rfl ?_).trans ((ih hview hlen).trans (by omega))
          simp [sizeHint]
          omega
      · have hview' : view = front ++ (items ++ a :: back) := by simp [hview]
        rw [length_append, length_singleton] at hlen
        have hlast : view[view.length - back.length - 1]? = some a := by
          have hindex : view.length - back.length - 1 = (front ++ items).length := by
            rw [length_append]
            omega
          rw [hindex, hview]
          simp
        have hcall : (⟨front.length, back.length, view⟩ : ListViewIter Item).call .back =
            (some a, ⟨front.length, (a :: back).length, view⟩) := by
          have hlt : back.length < view.length := by omega
          rw [call, nextBack, if_pos hlt, hlast]
          rfl
        have hyield : yield .back (items ++ [a]) = (some a, items) := by simp [yield]
        refine (run_cons_iff hcall hyield ?_).trans ((ih hview' ?_).trans ?_)
        all_goals
          simp [sizeHint]
          omega

/-- The iterator is lawful exactly if the items asked for at the two ends are together no more
than the list has. -/
theorem run_lawful_iff (view : List Item) (calls : List End) :
    (intoIter view).sizeHint = view.length ∧
      ((intoIter view).run calls = lawful calls view ↔
        min (calls.count .front) view.length + min (calls.count .back) view.length ≤
          view.length) := by
  have hrun := @run_eq_iff _ [] view [] calls view (by simp)
  rw [length_nil, Nat.zero_add, Nat.zero_add] at hrun
  exact ⟨rfl, hrun⟩

theorem run_lawful_three :
    (intoIter [1, 2, 3]).run [.front, .back, .front] = [(some 1, 2), (some 3, 1), (some 2, 0)] :=
  (run_lawful_iff [1, 2, 3] [.front, .back, .front]).2.mpr (by decide)

/-- The only item is yielded at both ends. -/
theorem run_twice : (intoIter [7]).run [.front, .back] = [(some 7, 0), (some 7, 0)] := rfl

end Salsa.ListView
