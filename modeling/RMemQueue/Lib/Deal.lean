import Mathlib.Algebra.BigOperators.Group.List.Basic
import Mathlib.Data.Int.CardIntervalMod
import Mathlib.Order.Lattice

/-!
# Dealing out numbers in turn

The numbers below `n` are dealt out in turn to the members of a list: `p` goes to the member at `p % length`.  Each
number has exactly one owner.  A member at rank `r` takes part in the deal from the number `r` on, so that adding or
removing it changes nothing exactly as long as at most `r` numbers are dealt.  One deal is even; several deals in a row
are even in total exactly as long as at most one of them does not come out (`deals_balanced_iff`).
-/

variable {α : Type}

section

variable [DecidableEq α]

/-- The numbers below `n` that `x` gets. -/
def deal (l : List α) (n : Nat) (x : α) : List Nat :=
  (List.range n).filter fun p => l[p % l.length]? = some x

theorem mem_deal {l : List α} {n p : Nat} {x : α} : p ∈ deal l n x ↔ p < n ∧ l[p % l.length]? = some x := by
  simp [deal]

theorem nodup_deal (l : List α) (n : Nat) (x : α) : (deal l n x).Nodup := List.nodup_range.filter _

theorem mem_of_mem_deal {l : List α} {n p : Nat} {x : α} (h : p ∈ deal l n x) : x ∈ l :=
  List.mem_of_getElem? (mem_deal.1 h).2

theorem deal_unique {l : List α} {n m p : Nat} {x y : α} (hx : p ∈ deal l n x) (hy : p ∈ deal l m y) : x = y :=
  Option.some.inj ((mem_deal.1 hx).2.symm.trans (mem_deal.1 hy).2)

theorem exists_mem_deal {l : List α} (hl : l ≠ []) {n p : Nat} (hp : p < n) : ∃ x ∈ l, p ∈ deal l n x := by
  have hlt : p % l.length < l.length := Nat.mod_lt _ (List.length_pos_iff.2 hl)
  exact ⟨l[p % l.length], List.getElem_mem _, mem_deal.2 ⟨hp, List.getElem?_eq_getElem hlt⟩⟩

/-- A member gets the number that is its rank. -/
theorem idxOf_mem_deal {l : List α} {x : α} {n : Nat} (hx : x ∈ l) (hn : l.idxOf x < n) :
    l.idxOf x ∈ deal l n x := by
  have hlt := List.idxOf_lt_length_of_mem hx
  rw [mem_deal, Nat.mod_eq_of_lt hlt, List.getElem?_eq_getElem hlt, List.getElem_idxOf hlt]
  exact ⟨hn, rfl⟩

/-- A member that takes no part in the deal can be removed. -/
theorem deal_erase {l : List α} {x : α} {n : Nat} (hx : x ∈ l) (hn : n ≤ l.idxOf x) (y : α) :
    deal (l.erase x) n y = deal l n y := by
  have hlt := List.idxOf_lt_length_of_mem hx
  have hlen := List.length_erase_of_mem hx
  refine List.filter_congr fun p hp => ?_
  have hp := List.mem_range.1 hp
  rw [Nat.mod_eq_of_lt (by omega : p < l.length), List.erase_eq_eraseIdx_of_idxOf rfl, List.length_eraseIdx_of_lt hlt,
    Nat.mod_eq_of_lt (by omega), List.getElem?_eraseIdx_of_lt (by omega)]

/-! ### Even deals -/

/-- Two members of a list get shares of one number that differ by at most one: the first `n % length` get one more. -/
theorem length_deal {l : List α} (hl : l.Nodup) {r : Nat} {x : α} (hx : l[r]? = some x) (n : Nat) :
    (deal l n x).length = n / l.length + if r < n % l.length then 1 else 0 := by
  obtain ⟨hr, hxr⟩ := List.getElem?_eq_some_iff.1 hx
  have hpos : 0 < l.length := by omega
  have hdeal : (deal l n x).length = n.count (· ≡ r [MOD l.length]) := by
    rw [deal, ← List.countP_eq_length_filter, Nat.count]
    refine List.countP_congr fun p _ => ?_
    have hlt : p % l.length < l.length := Nat.mod_lt _ hpos
    simp only [decide_eq_true_eq, Nat.ModEq, Nat.mod_eq_of_lt hr, List.getElem?_eq_getElem hlt, Option.some.injEq]
    rw [← hxr]
    exact hl.getElem_inj_iff
  rw [hdeal, Nat.count_modEq_card n hpos, Nat.mod_eq_of_lt hr]

/-- What a member gets of several numbers. -/
theorem sum_length_deal {l : List α} (hl : l.Nodup) {r : Nat} {x : α} (hx : l[r]? = some x) (ns : List Nat) :
    (ns.map fun n => (deal l n x).length).sum = (ns.map (· / l.length)).sum + ns.countP fun n => r < n % l.length := by
  induction ns with
  | nil => rfl
  | cons n ns ih =>
    rw [List.map_cons, List.sum_cons, ih, length_deal hl hx, List.map_cons, List.sum_cons, List.countP_cons]
    simp only [decide_eq_true_eq]
    omega

/-- Several numbers are dealt out evenly in total if and only if at most one of them is no multiple of the number of
members: each one that is not favours the members in front. -/
theorem deals_balanced_iff {l : List α} (hl : l.Nodup) (ns : List Nat) :
    (∀ x ∈ l, ∀ y ∈ l, (ns.map fun n => (deal l n x).length).sum ≤ (ns.map fun n => (deal l n y).length).sum + 1) ↔
      l = [] ∨ (ns.countP fun n => n % l.length ≠ 0) ≤ 1 := by
  rcases l with _ | ⟨a, l⟩
  · simp
  have hmore : ∀ r, (ns.countP fun n => r < n % (a :: l).length) ≤ ns.countP fun n => n % (a :: l).length ≠ 0 := by
    intro r
    refine List.countP_mono_left fun n _ h => ?_
    simp only [decide_eq_true_eq] at h ⊢
    omega
  constructor
  · intro h
    right
    -- the first member against the last one
    have hfirst : (a :: l)[0]? = some a := rfl
    obtain ⟨z, hlast⟩ : ∃ z, (a :: l)[l.length]? = some z := ⟨_, List.getElem?_eq_getElem (by simp)⟩
    have hle := h a (List.mem_cons_self ..) z (List.mem_of_getElem? hlast)
    rw [sum_length_deal hl hfirst, sum_length_deal hl hlast] at hle
    have hzero : (ns.countP fun n => l.length < n % (a :: l).length) = 0 := by
      rw [List.countP_eq_zero]
      intro n _ h
      have := Nat.mod_lt n (by simp : 0 < (a :: l).length)
      simp only [List.length_cons, decide_eq_true_eq] at h this
      omega
    have hall : (ns.countP fun n => 0 < n % (a :: l).length) = ns.countP fun n => n % (a :: l).length ≠ 0 :=
      List.countP_congr fun n _ => by simp [Nat.pos_iff_ne_zero]
    omega
  · rintro (h | h) x hx y hy
    · cases h
    obtain ⟨r, hr⟩ := List.mem_iff_getElem?.1 hx
    obtain ⟨r', hr'⟩ := List.mem_iff_getElem?.1 hy
    have := hmore r
    rw [sum_length_deal hl hr, sum_length_deal hl hr']
    omega

end

/-- The rank of a member of a sorted list is the number of members below it. -/
theorem idxOf_eq_countP [LinearOrder α] {l : List α} (hl : l.Pairwise (· < ·)) {x : α} (hx : x ∈ l) :
    l.idxOf x = l.countP (· < x) := by
  induction l with
  | nil => cases hx
  | cons a l ih =>
    rw [List.pairwise_cons] at hl
    by_cases h : a = x
    · subst h
      have hnone : l.countP (· < a) = 0 := by
        rw [List.countP_eq_zero]
        intro b hb
        simpa using le_of_lt (hl.1 b hb)
      rw [List.idxOf_cons_self, List.countP_cons_of_neg (by simp), hnone]
    · have hx' : x ∈ l := by simpa [Ne.symm h] using hx
      rw [List.idxOf_cons_ne _ h, List.countP_cons_of_pos (by simpa using hl.1 x hx'), ih hl.2 hx']
