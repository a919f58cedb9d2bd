import Mathlib

/-!
# What the slots of a list hold

A system keeps its processes in a list, each in its place; a step replaces one of them.  What all of
them hold together is `l.flatMap f`, up to order.  The lemmas say how it changes when slot `i` gives
something away or takes something in.
-/

namespace Slots

open List

universe u v

variable {α : Type u} {β : Type v} (f : α → List β) {l : List α} {i : ℕ} {x y : α}

theorem exists_rest (h : l[i]? = some x) (y : α) :
    ∃ rest, (l.flatMap f).Perm (f x ++ rest) ∧ ((l.set i y).flatMap f).Perm (f y ++ rest) := by
  obtain ⟨hi, rfl⟩ := List.getElem?_eq_some_iff.mp h
  have hsplit : l = l.take i ++ l[i] :: l.drop (i + 1) := by
    rw [← drop_eq_getElem_cons hi, take_append_drop]
  have hset : l.set i y = l.take i ++ y :: l.drop (i + 1) := set_eq_take_append_cons_drop ▸ if_pos hi
  refine ⟨(l.take i).flatMap f ++ (l.drop (i + 1)).flatMap f, ?_, ?_⟩
  · conv_lhs => rw [hsplit]
    rw [flatMap_append, flatMap_cons]
    exact perm_append_comm_assoc ..
  · rw [hset, flatMap_append, flatMap_cons]
    exact perm_append_comm_assoc ..

variable {out : List β}

theorem perm_of_gives (h : l[i]? = some x) (hout : (f x).Perm (f y ++ out)) :
    (l.flatMap f).Perm ((l.set i y).flatMap f ++ out) := by
  obtain ⟨rest, hbefore, hafter⟩ := exists_rest f h y
  calc l.flatMap f
    _ |>.Perm (f x ++ rest) := hbefore
    _ |>.Perm (f y ++ out ++ rest) := hout.append_right rest
    _ |>.Perm (f y ++ rest ++ out) := by
        rw [append_assoc, append_assoc]
        exact perm_append_comm.append_left (f y)
    _ |>.Perm ((l.set i y).flatMap f ++ out) := hafter.symm.append_right out

theorem perm_of_takes (h : l[i]? = some x) {new : List β} (hnew : (f y).Perm (f x ++ new)) :
    ((l.set i y).flatMap f).Perm (l.flatMap f ++ new) := by
  obtain ⟨rest, hbefore, hafter⟩ := exists_rest f h y
  calc (l.set i y).flatMap f
    _ |>.Perm (f y ++ rest) := hafter
    _ |>.Perm (f x ++ new ++ rest) := hnew.append_right rest
    _ |>.Perm (f x ++ rest ++ new) := by
        rw [append_assoc, append_assoc]
        exact perm_append_comm.append_left (f x)
    _ |>.Perm (l.flatMap f ++ new) := hbefore.symm.append_right new

theorem subperm_of_gives (h : l[i]? = some x) (hout : (f y ++ out).Subperm (f x)) :
    ((l.set i y).flatMap f ++ out).Subperm (l.flatMap f) := by
  obtain ⟨rest, hbefore, hafter⟩ := exists_rest f h y
  have hswap : (f y ++ rest ++ out).Perm (f y ++ out ++ rest) := by
    rw [append_assoc, append_assoc]
    exact perm_append_comm.append_left (f y)
  have hrest : (f y ++ out ++ rest).Subperm (f x ++ rest) := (subperm_append_right rest).mpr hout
  exact ((hafter.append_right out).trans hswap).subperm.trans (hrest.trans hbefore.symm.subperm)

theorem flatMap_set (h : l[i]? = some x) (hf : f y = f x) : (l.set i y).flatMap f = l.flatMap f := by
  obtain ⟨hi, rfl⟩ := List.getElem?_eq_some_iff.mp h
  rw [flatMap_def, flatMap_def, map_set, hf, ← map_set, set_getElem_self]

theorem perm_of_keeps (h : l[i]? = some x) (hkeeps : (f y).Perm (f x)) :
    ((l.set i y).flatMap f).Perm (l.flatMap f) := by
  obtain ⟨rest, hbefore, hafter⟩ := exists_rest f h y
  exact hafter.trans ((hkeeps.append_right rest).trans hbefore.symm)

end Slots
