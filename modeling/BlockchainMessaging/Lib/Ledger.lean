import Mathlib.Algebra.BigOperators.Group.Finset.Basic
import Mathlib.Algebra.Order.BigOperators.Group.List
import Mathlib.Data.Finmap
import Mathlib.Tactic.Abel
import Mathlib.Tactic.Linarith

/-!
# Double-entry ledgers

A `Transfer` moves an amount of a commutative group `G` from one account to another. `net ts a` is
what the transfers `ts` do to account `a`, whatever order they are posted in. Over an ordered group,
`solvent_iff` says when a batch of transfers that are affordable one at a time is affordable
together.

The second half is the book itself: a finite map whose absent accounts hold `0`.
-/

namespace Ledger

structure Transfer (A G : Type*) where
  src : A
  dst : A
  amount : G

section Group
variable {A G : Type*} [DecidableEq A] [AddCommGroup G]

/-- What one transfer does to account `a`. -/
def Transfer.effect (t : Transfer A G) (a : A) : G :=
  (if t.dst = a then t.amount else 0) - (if t.src = a then t.amount else 0)

def net (ts : List (Transfer A G)) (a : A) : G :=
  (ts.map fun t => t.effect a).sum

/-- The total amount of the transfers out of `a`, those to itself included. -/
def sent (ts : List (Transfer A G)) (a : A) : G :=
  ((ts.filter fun t => t.src = a).map Transfer.amount).sum

def received (ts : List (Transfer A G)) (a : A) : G :=
  ((ts.filter fun t => t.dst = a).map Transfer.amount).sum

@[simp] theorem net_nil (a : A) : net ([] : List (Transfer A G)) a = 0 := rfl

@[simp] theorem net_cons (t : Transfer A G) (ts : List (Transfer A G)) (a : A) :
    net (t :: ts) a = t.effect a + net ts a := rfl

theorem net_append (ts us : List (Transfer A G)) (a : A) : net (ts ++ us) a = net ts a + net us a := by
  simp [net]

theorem net_eq_received_sub_sent (ts : List (Transfer A G)) (a : A) :
    net ts a = received ts a - sent ts a := by
  induction ts with
  | nil => simp [received, sent]
  | cons t ts ih =>
    rw [net_cons, ih]
    simp only [Transfer.effect, received, sent, List.filter_cons, decide_eq_true_eq]
    split_ifs <;> simp <;> abel

/-- The same transfer between other accounts, of what `g` makes of the amount. -/
def Transfer.relabel {B H : Type*} (f : A → B) (g : G → H) (t : Transfer A G) : Transfer B H :=
  ⟨f t.src, f t.dst, g t.amount⟩

section
variable {B H : Type*} [DecidableEq B] [AddCommGroup H] {f : A → B}

theorem Transfer.effect_relabel (hf : Function.Injective f) (g : G →+ H) (t : Transfer A G) (a : A) :
    (t.relabel f g).effect (f a) = g (t.effect a) := by
  simp only [effect, relabel, hf.eq_iff, map_sub, apply_ite g, map_zero]

/-- Accounts under other names are moved by relabelled transfers as before. -/
theorem net_relabel (hf : Function.Injective f) (g : G →+ H) (ts : List (Transfer A G)) (a : A) :
    net (ts.map (Transfer.relabel f g)) (f a) = g (net ts a) := by
  induction ts with
  | nil => exact (map_zero g).symm
  | cons t ts ih => rw [List.map_cons, net_cons, net_cons, ih, Transfer.effect_relabel hf, map_add]

end

end Group

section Ordered
variable {A G : Type*} [DecidableEq A] [AddCommGroup G] [LinearOrder G] [IsOrderedAddMonoid G]
variable {b : A → G} {ts : List (Transfer A G)}

theorem received_nonneg (hts : ∀ t ∈ ts, 0 ≤ t.amount) (a : A) : 0 ≤ received ts a := by
  refine List.sum_nonneg fun x hx => ?_
  obtain ⟨t, ht, rfl⟩ := List.mem_map.1 hx
  exact hts t (List.mem_of_mem_filter ht)

omit [IsOrderedAddMonoid G] in
/-- An account that sends at most once sends no more than it has. -/
theorem sent_le_of_countP_le_one (hts : ∀ t ∈ ts, t.amount ≤ b t.src) {a : A} (ha : 0 ≤ b a)
    (hone : ts.countP (fun t => t.src = a) ≤ 1) : sent ts a ≤ b a := by
  rw [List.countP_eq_length_filter] at hone
  rcases hf : ts.filter (fun t => t.src = a) with _ | ⟨t, _ | ⟨_, _⟩⟩ <;> rw [sent, hf]
  · simpa using ha
  · have ht : t ∈ ts.filter fun t => t.src = a := by rw [hf]; exact List.mem_singleton_self t
    obtain ⟨htm, hta⟩ := List.mem_filter.1 ht
    have hta : t.src = a := by simpa using hta
    simpa [hta] using hts t htm
  · rw [hf] at hone; simp at hone

/-- Transfers that the opening balances cover one at a time leave no account below zero exactly when
every account that sends more than once is covered by its opening balance and its receipts. -/
theorem solvent_iff (hb : ∀ a, 0 ≤ b a) (hts : ∀ t ∈ ts, 0 ≤ t.amount)
    (hcov : ∀ t ∈ ts, t.amount ≤ b t.src) :
    (∀ a, 0 ≤ b a + net ts a) ↔
      ∀ a, 2 ≤ ts.countP (fun t => t.src = a) → sent ts a ≤ b a + received ts a := by
  have key : ∀ a, 0 ≤ b a + net ts a ↔ sent ts a ≤ b a + received ts a := by
    intro a
    rw [net_eq_received_sub_sent, ← add_sub_assoc, sub_nonneg]
  constructor
  · exact fun h a _ => (key a).1 (h a)
  · intro h a
    rw [key]
    rcases Nat.lt_or_ge (ts.countP fun t => t.src = a) 2 with hlt | hge
    · calc sent ts a ≤ b a := sent_le_of_countP_le_one hcov (hb a) (Nat.le_of_lt_succ hlt)
        _ ≤ b a + received ts a := le_add_of_nonneg_right (received_nonneg hts a)
    · exact h a hge

end Ordered

/-! ### The book -/

/-- A finite map from accounts to balances, in which an absent account holds `0`. -/
abbrev Book (A G : Type*) := Finmap fun _ : A => G

namespace Book
variable {A G : Type*} [DecidableEq A] [AddCommGroup G]

def balance (m : Book A G) (a : A) : G :=
  (m.lookup a).getD 0

/-- Rewrites the entry of `a`, creating it at `0` first when it is absent. -/
def adjust (m : Book A G) (a : A) (f : G → G) : Book A G :=
  m.insert a (f (m.balance a))

/-- The sum of all entries. -/
def total (m : Book A G) : G :=
  ∑ a ∈ m.keys, m.balance a

@[simp] theorem balance_empty (a : A) : balance (∅ : Book A G) a = 0 := by
  simp [balance]

@[simp] theorem total_empty : total (∅ : Book A G) = 0 := by
  simp [total]

theorem balance_adjust (m : Book A G) (a c : A) (f : G → G) :
    (m.adjust a f).balance c = if c = a then f (m.balance a) else m.balance c := by
  unfold adjust
  split
  · subst c; simp [balance]
  · rename_i h
    simp [balance, Finmap.lookup_insert_of_ne _ h]

theorem keys_adjust (m : Book A G) (a : A) (f : G → G) : (m.adjust a f).keys = insert a m.keys := by
  ext c
  simp [adjust, Finmap.mem_keys]

theorem balance_of_notMem {m : Book A G} {a : A} (h : a ∉ m.keys) : m.balance a = 0 := by
  rw [Finmap.mem_keys] at h
  simp [balance, Finmap.lookup_eq_none.2 h]

theorem total_eq_sum_of_subset {m : Book A G} {S : Finset A} (h : m.keys ⊆ S) :
    m.total = ∑ a ∈ S, m.balance a :=
  Finset.sum_subset h fun _ _ ha => balance_of_notMem ha

theorem total_adjust (m : Book A G) (a : A) (f : G → G) :
    (m.adjust a f).total = m.total + (f (m.balance a) - m.balance a) := by
  have ha : a ∈ insert a m.keys := Finset.mem_insert_self a _
  rw [total, keys_adjust, total_eq_sum_of_subset (Finset.subset_insert a m.keys),
    ← Finset.add_sum_erase _ _ ha, ← Finset.add_sum_erase _ _ ha]
  have hrest : ∑ c ∈ (insert a m.keys).erase a, (m.adjust a f).balance c =
      ∑ c ∈ (insert a m.keys).erase a, m.balance c :=
    Finset.sum_congr rfl fun c hc => by
      rw [balance_adjust]; simp [(Finset.mem_erase.1 hc).1]
  rw [hrest, balance_adjust]
  simp
  abel

/-- Posts a transfer: the source is debited first, then the destination credited. -/
def post (m : Book A G) (t : Transfer A G) : Book A G :=
  (m.adjust t.src (· - t.amount)).adjust t.dst (· + t.amount)

theorem balance_post (m : Book A G) (t : Transfer A G) (a : A) :
    (m.post t).balance a = m.balance a + t.effect a := by
  simp only [post, balance_adjust, Transfer.effect, eq_comm (a := a)]
  split_ifs <;> simp_all
  abel

theorem total_post (m : Book A G) (t : Transfer A G) : (m.post t).total = m.total := by
  simp only [post, total_adjust]
  abel

theorem balance_foldl_post (ts : List (Transfer A G)) (m : Book A G) (a : A) :
    (ts.foldl post m).balance a = m.balance a + net ts a := by
  induction ts generalizing m with
  | nil => simp
  | cons t ts ih => rw [List.foldl_cons, ih, balance_post, net_cons, add_assoc]

theorem total_foldl_post (ts : List (Transfer A G)) (m : Book A G) :
    (ts.foldl post m).total = m.total := by
  induction ts generalizing m with
  | nil => rfl
  | cons t ts ih => rw [List.foldl_cons, ih, total_post]

end Book
end Ledger
