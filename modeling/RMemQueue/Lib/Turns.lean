import Mathlib.Algebra.BigOperators.Group.Finset.Basic
import Mathlib.Algebra.BigOperators.Group.Multiset.Basic
import Mathlib.Algebra.Order.BigOperators.Group.Finset

/-!
# Taking turns

The elements of a finite set `s` are served one after the other, in the order of a list.  The service is *even* when
any two of them have been served equally often, up to one; it is *in turns* when nobody is served twice in the same
round of `#s` services.  A service is even at any time if and only if it is in turns (`evenOn_take_iff`).
-/

variable {α : Type} [DecidableEq α]

/-- Any two elements occur equally often, up to one. -/
def EvenOn (s : Finset α) (l : List α) : Prop := ∀ a ∈ s, ∀ b ∈ s, l.count a ≤ l.count b + 1

/-- No element occurs twice in a round of `n`. -/
def InTurns (n : Nat) (l : List α) : Prop :=
  ∀ i j a, i < j → i / n = j / n → l[i]? = some a → l[j]? ≠ some a

section

variable {s : Finset α} {l : List α} {n : Nat} {a : α}

private theorem sum_count (hl : ∀ a ∈ l, a ∈ s) : (∑ a ∈ s, l.count a) = l.length := by
  have h := Multiset.sum_count_eq_card (s := s) (m := (l : Multiset α)) (by simpa using hl)
  simpa using h

/-! ### Even services -/

/-- In an even service nobody is left behind. -/
private theorem EvenOn.length_lt (h : EvenOn s l) (hl : ∀ a ∈ l, a ∈ s) (ha : a ∈ s) :
    l.length < s.card * (l.count a + 1) := by
  have hlt : (∑ b ∈ s, l.count b) < ∑ _b ∈ s, (l.count a + 1) :=
    Finset.sum_lt_sum (fun b hb => h b hb a ha) ⟨a, ha, Nat.lt_succ_self _⟩
  rwa [sum_count hl, Finset.sum_const, Nat.nsmul_eq_mul] at hlt

/-- In an even service nobody gets ahead. -/
private theorem EvenOn.lt_length (h : EvenOn s l) (hl : ∀ a ∈ l, a ∈ s) (ha : a ∈ s) {k : Nat} (hk : k < l.count a) :
    s.card * k < l.length := by
  have hlt : (∑ _b ∈ s, k) < ∑ b ∈ s, l.count b := by
    refine Finset.sum_lt_sum (fun b hb => ?_) ⟨a, ha, hk⟩
    have := h a ha b hb
    omega
  rwa [sum_count hl, Finset.sum_const, Nat.nsmul_eq_mul] at hlt

/-! ### Prefixes -/

private theorem count_take_succ {i : Nat} (h : l[i]? = some a) : (l.take (i + 1)).count a = (l.take i).count a + 1 := by
  rw [List.take_add_one, h, List.count_append]
  simp

private theorem count_take_succ_of_ne {i : Nat} (h : l[i]? ≠ some a) :
    (l.take (i + 1)).count a = (l.take i).count a := by
  rw [List.take_add_one, List.count_append]
  cases hi : l[i]? with
  | none => simp
  | some b =>
    have hb : b ≠ a := fun hb => h (by rw [hi, hb])
    simp [hb]

private theorem count_take_mono {i j : Nat} (h : i ≤ j) : (l.take i).count a ≤ (l.take j).count a := by
  have hsub : (l.take i).Sublist (l.take j) := (List.take_prefix_take_left h).sublist
  exact hsub.count_le a

/-! ### Services in turns -/

/-- Nobody is served more often than there are rounds. -/
private theorem InTurns.count_lt (h : InTurns n l) (hn : 0 < n) (k : Nat) : n * (l.take k).count a < k + n := by
  induction k using Nat.strong_induction_on with
  | _ k ih =>
    cases k with
    | zero => simpa using hn
    | succ k =>
      by_cases hk : l[k]? = some a
      · -- the element has not been served in the round of `k` before
        have hround : ∀ i, n * (k / n) + i ≤ k → (l.take (n * (k / n) + i)).count a = (l.take (n * (k / n))).count a := by
          intro i hi
          induction i with
          | zero => rfl
          | succ i ihi =>
            rw [← Nat.add_assoc, count_take_succ_of_ne, ihi (by omega)]
            intro hat
            refine h _ k a (by omega) ?_ hat hk
            have hlt := Nat.mod_lt k hn
            have hdiv := Nat.div_add_mod k n
            rw [Nat.mul_add_div hn, Nat.div_eq_of_lt (show i < n by omega), Nat.add_zero]
        have hdiv := Nat.div_add_mod k n
        have hlt := Nat.mod_lt k hn
        have hstart := hround (k % n) (by omega)
        rw [hdiv] at hstart
        have hcount : (l.take (n * (k / n))).count a ≤ k / n := by
          have := ih (n * (k / n)) (by omega)
          rw [← Nat.mul_succ] at this
          exact Nat.le_of_lt_succ (Nat.lt_of_mul_lt_mul_left this)
        rw [count_take_succ hk, hstart, Nat.mul_succ]
        have := Nat.mul_le_mul_left n hcount
        omega
      · rw [count_take_succ_of_ne hk]
        have := ih k (by omega)
        omega

/-- Everybody is served once in each full round. -/
private theorem InTurns.lt_count (h : InTurns s.card l) (hl : ∀ a ∈ l, a ∈ s) (ha : a ∈ s) {k : Nat}
    (hk : k ≤ l.length) : k < s.card * ((l.take k).count a + 1) := by
  have hn : 0 < s.card := Finset.card_pos.2 ⟨a, ha⟩
  have hdiv := Nat.div_add_mod k s.card
  have hlt := Nat.mod_lt k hn
  have hrounds : k / s.card ≤ (l.take (s.card * (k / s.card))).count a := by
    by_contra hless
    have hsum : (∑ b ∈ s, (l.take (s.card * (k / s.card))).count b) < ∑ _b ∈ s, k / s.card := by
      refine Finset.sum_lt_sum (fun b _ => ?_) ⟨a, ha, by omega⟩
      have hb := h.count_lt hn (a := b) (s.card * (k / s.card))
      rw [← Nat.mul_succ] at hb
      exact Nat.le_of_lt_succ (Nat.lt_of_mul_lt_mul_left hb)
    rw [sum_count fun b hb => hl b (List.mem_of_mem_take hb), Finset.sum_const, Nat.nsmul_eq_mul, List.length_take] at hsum
    omega
  have hmono : (l.take (s.card * (k / s.card))).count a ≤ (l.take k).count a := count_take_mono (by omega)
  have := Nat.mul_le_mul_left s.card (hrounds.trans hmono)
  rw [Nat.mul_succ]
  omega

/-- **Even services.**  At any time everybody has been served equally often, up to one, if and only if nobody is served
twice in a round. -/
theorem evenOn_take_iff (hl : ∀ a ∈ l, a ∈ s) : (∀ k, EvenOn s (l.take k)) ↔ InTurns s.card l := by
  constructor
  · intro h i j a hij hround hi hj
    have ha : a ∈ s := hl a (List.mem_of_getElem? hi)
    have hn : 0 < s.card := Finset.card_pos.2 ⟨a, ha⟩
    have hmem : ∀ k, ∀ b ∈ l.take k, b ∈ s := fun k b hb => hl b (List.mem_of_mem_take hb)
    have hjlt : j < l.length := (List.getElem?_eq_some_iff.1 hj).1
    have hdivi := Nat.div_add_mod i s.card
    have hdivj := Nat.div_add_mod j s.card
    have hmod := Nat.mod_lt j hn
    rw [hround] at hdivi
    -- at the start of the round of `i` and `j` everybody has been served once for each round
    have hstart : j / s.card ≤ (l.take (s.card * (j / s.card))).count a := by
      have := (h (s.card * (j / s.card))).length_lt (hmem _) ha
      rw [List.length_take, Nat.min_eq_left (by omega)] at this
      exact Nat.le_of_lt_succ (Nat.lt_of_mul_lt_mul_left this)
    -- after it has been served twice it is ahead
    have htwice : j / s.card + 1 < (l.take (j + 1)).count a := by
      have h₁ : (l.take (s.card * (j / s.card))).count a ≤ (l.take i).count a := count_take_mono (by omega)
      have h₂ : (l.take (i + 1)).count a ≤ (l.take j).count a := count_take_mono hij
      rw [count_take_succ hi] at h₂
      rw [count_take_succ hj]
      omega
    have hlen := (h (j + 1)).lt_length (hmem _) ha htwice
    rw [List.length_take, Nat.min_eq_left (by omega), Nat.mul_succ] at hlen
    omega
  · intro h k a ha b hb
    have hn : 0 < s.card := Finset.card_pos.2 ⟨a, ha⟩
    have htake : l.take k = l.take (min k l.length) := by
      rcases Nat.le_total k l.length with hk | hk
      · rw [Nat.min_eq_left hk]
      · rw [Nat.min_eq_right hk, List.take_length, List.take_of_length_le hk]
    rw [htake]
    have hmax := h.count_lt hn (a := a) (min k l.length)
    have hmin := h.lt_count hl hb (Nat.min_le_right k l.length)
    have hlt : s.card * (l.take (min k l.length)).count a < s.card * ((l.take (min k l.length)).count b + 1 + 1) := by
      rw [Nat.mul_succ _ ((l.take (min k l.length)).count b + 1)]
      omega
    exact Nat.le_of_lt_succ (Nat.lt_of_mul_lt_mul_left hlt)

end
