import Mathlib.Data.List.Basic
import Mathlib.Data.List.Nodup
import Mathlib.Data.List.TakeWhile

/-!
# Linked lists whose nodes are addressed

A list is its nodes from front to back, each with an address. No address is used twice, so an
iterator, which is the address of a node, never comes to denote another node. The operations that
need a node are `none` where it is not there: on an empty list, or with an iterator to a node that
has been erased.
-/

structure NodeList (α : Type*) where
  nodes : List (ℕ × α)
  fresh : ℕ
  nodup : (nodes.map Prod.fst).Nodup
  lt_fresh : ∀ n ∈ nodes, n.1 < fresh

namespace NodeList
variable {α : Type*}

def empty : NodeList α :=
  ⟨[], 0, List.nodup_nil, fun _ h => absurd h List.not_mem_nil⟩

def toList (l : NodeList α) : List α :=
  l.nodes.map Prod.snd

/-- What the iterator `it` points to. -/
def deref (it : ℕ) (l : NodeList α) : Option α :=
  (l.nodes.find? fun n => n.1 == it).map Prod.snd

/-- The iterator after `it`, `some none` when it is the end. -/
def next (it : ℕ) (l : NodeList α) : Option (Option ℕ) :=
  match l.nodes.dropWhile fun n => n.1 != it with
  | [] => none
  | _ :: rest => some (rest.head?.map Prod.fst)

/-- The iterator to the first node; no node has the one of an empty list. -/
def begin (l : NodeList α) : ℕ :=
  (l.nodes.head?.map Prod.fst).getD l.fresh

def back (l : NodeList α) : Option α :=
  l.toList.getLast?

def popBack (l : NodeList α) : Option (NodeList α) :=
  if l.nodes.isEmpty then none
  else some
    { nodes := l.nodes.dropLast
      fresh := l.fresh
      nodup := l.nodup.sublist ((List.dropLast_sublist _).map _)
      lt_fresh := fun n hn => l.lt_fresh n ((List.dropLast_sublist _).subset hn) }

theorem fresh_notMem (l : NodeList α) : l.fresh ∉ l.nodes.map Prod.fst := by
  intro h
  obtain ⟨n, hn, heq⟩ := List.mem_map.1 h
  exact absurd (l.lt_fresh n hn) (by omega)

def pushFront (a : α) (l : NodeList α) : NodeList α where
  nodes := (l.fresh, a) :: l.nodes
  fresh := l.fresh + 1
  nodup := List.nodup_cons.2 ⟨l.fresh_notMem, l.nodup⟩
  lt_fresh n hn := by
    rcases List.mem_cons.1 hn with rfl | hn
    · exact Nat.lt_succ_self _
    · exact Nat.lt_succ_of_lt (l.lt_fresh n hn)

/-- The list without the node at `it`. -/
def unlink (it : ℕ) (l : NodeList α) : NodeList α where
  nodes := l.nodes.filter fun n => n.1 != it
  fresh := l.fresh
  nodup := l.nodup.sublist (List.filter_sublist.map _)
  lt_fresh n hn := l.lt_fresh n (List.mem_of_mem_filter hn)

def erase (it : ℕ) (l : NodeList α) : Option (NodeList α) :=
  if it ∈ l.nodes.map Prod.fst then some (l.unlink it) else none

theorem fst_of_find {it : ℕ} {nodes : List (ℕ × α)} {n : ℕ × α}
    (h : (nodes.find? fun n => n.1 == it) = some n) : n.1 = it := by
  simpa using List.find?_some h

/-- `splice(begin(), *this, it)`: the node itself moves, iterators to it stay good. -/
def spliceFront (it : ℕ) (l : NodeList α) : Option (NodeList α) :=
  match h : l.nodes.find? fun n => n.1 == it with
  | none => none
  | some n => some
    { nodes := n :: (l.unlink it).nodes
      fresh := l.fresh
      nodup := by
        refine List.nodup_cons.2 ⟨?_, (l.unlink it).nodup⟩
        rw [fst_of_find h]
        intro hmem
        obtain ⟨m, hm, heq⟩ := List.mem_map.1 hmem
        simpa [heq] using List.of_mem_filter hm
      lt_fresh := fun m hm => by
        rcases List.mem_cons.1 hm with rfl | hm
        · exact l.lt_fresh _ (List.mem_of_find?_eq_some h)
        · exact (l.unlink it).lt_fresh m hm }

variable {l : NodeList α} {it : ℕ} {a : α}

theorem mem_unlink {n : ℕ × α} : n ∈ (l.unlink it).nodes ↔ n ∈ l.nodes ∧ n.1 ≠ it := by
  simp [unlink]

theorem erase_of_mem (h : (it, a) ∈ l.nodes) : l.erase it = some (l.unlink it) :=
  if_pos (List.mem_map_of_mem h)

/-- An address belongs to one node. -/
theorem eq_of_fst_eq {m n : ℕ × α} (hm : m ∈ l.nodes) (hn : n ∈ l.nodes) (h : m.1 = n.1) : m = n :=
  List.inj_on_of_nodup_map l.nodup hm hn h

theorem spliceFront_of_mem (h : (it, a) ∈ l.nodes) :
    ∃ l', l.spliceFront it = some l' ∧ l'.nodes = (it, a) :: (l.unlink it).nodes := by
  unfold spliceFront
  split
  · rename_i hnone
    have := List.find?_eq_none.1 hnone _ h
    simp at this
  · rename_i n hsome
    obtain rfl : n = (it, a) :=
      eq_of_fst_eq (List.mem_of_find?_eq_some hsome) h (fst_of_find hsome)
    exact ⟨_, rfl, rfl⟩

theorem popBack_of_ne_nil (h : l.nodes ≠ []) :
    ∃ l', l.popBack = some l' ∧ l'.nodes = l.nodes.dropLast := by
  rw [popBack, if_neg (by simpa using h)]
  exact ⟨_, rfl, rfl⟩

theorem notMem_of_nodes_eq {before after : List (ℕ × α)} (h : l.nodes = before ++ (it, a) :: after) :
    ∀ n ∈ before, n.1 ≠ it := by
  intro n hn heq
  have hnodup := l.nodup
  rw [h, List.map_append, List.map_cons, List.nodup_append] at hnodup
  exact hnodup.2.2 _ (List.mem_map_of_mem hn) _ List.mem_cons_self heq

theorem deref_of_nodes_eq {before after : List (ℕ × α)} (h : l.nodes = before ++ (it, a) :: after) :
    l.deref it = some a := by
  have hfind : (l.nodes.find? fun n => n.1 == it) = some (it, a) := by
    rw [h, List.find?_append, List.find?_eq_none.2, Option.none_or, List.find?_cons_of_pos]
    · exact beq_self_eq_true it
    · intro n hn
      simpa using notMem_of_nodes_eq h n hn
  rw [deref, hfind]
  rfl

theorem next_of_nodes_eq {before after : List (ℕ × α)} (h : l.nodes = before ++ (it, a) :: after) :
    l.next it = some (after.head?.map Prod.fst) := by
  have hdrop : (l.nodes.dropWhile fun n => n.1 != it) = (it, a) :: after := by
    rw [h, List.dropWhile_append_of_pos, List.dropWhile_cons_of_neg]
    · simp
    · intro n hn
      simpa using notMem_of_nodes_eq h n hn
  rw [next, hdrop]

/-- There is no way on from a node that has been unlinked. -/
theorem next_unlink (it : ℕ) (l : NodeList α) : (l.unlink it).next it = none := by
  have hdrop : ((l.unlink it).nodes.dropWhile fun n => n.1 != it) = [] := by
    refine List.dropWhile_eq_nil_iff.2 fun n hn => ?_
    simpa using (mem_unlink.1 hn).2
  rw [next, hdrop]

section
variable [DecidableEq α]

/-- When no value occurs twice, unlinking a node is dropping its value. -/
theorem toList_unlink (hn : l.toList.Nodup) (h : (it, a) ∈ l.nodes) :
    (l.unlink it).toList = l.toList.filter (· != a) := by
  rw [toList, toList, List.filter_map]
  refine congrArg _ (List.filter_congr fun n hn' => ?_)
  rw [Bool.eq_iff_iff, bne_iff_ne, Function.comp, bne_iff_ne]
  refine not_congr ⟨fun h1 => ?_, fun h2 => ?_⟩
  · rw [eq_of_fst_eq hn' h h1]
  · rw [List.inj_on_of_nodup_map hn hn' h h2]

end

end NodeList
