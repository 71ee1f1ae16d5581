import RMemQueue.Lib.Act

/-!
# Calls that take locks

A `LockAct` is a call that takes reader–writer locks around its reads and writes and releases them in the opposite
order, as guards do.  What a section computes from what it has read is written back in a step of its own (`update`), and a
section may read in two steps (`inspect`), so that only its lock keeps others out between them.

* `LockAct.Within`: the call only takes locks from a rank on, each ranking above those that it holds.
-/

namespace Conc

/-- A lock is held together with other readers, or alone. -/
inductive Mode where
  | read
  | write
  deriving DecidableEq, Repr

/-- A call with the locks `Λ`: it has ended, takes an atomic step, takes a lock, or releases the lock it took last. -/
inductive LockAct (Λ σ ε α : Type) where
  | ret (o : Outcome ε α)
  | atomic (f : σ → σ) (k : σ → LockAct Λ σ ε α)
  | acquire (l : Λ) (m : Mode) (k : LockAct Λ σ ε α)
  | release (k : LockAct Λ σ ε α)

variable {Λ σ τ ε α β : Type}

theorem Act.bind_pure (y : Act σ ε α) : y >>= pure = y := by
  show y.bind _ = y
  induction y with
  | ret o => cases o <;> rfl
  | atomic f k ih => exact congrArg (Act.atomic f) (funext ih)

namespace LockAct

def bind : LockAct Λ σ ε α → (α → LockAct Λ σ ε β) → LockAct Λ σ ε β
  | .ret (.ok a), g => g a
  | .ret (.err e), _ => .ret (.err e)
  | .ret .panic, _ => .ret .panic
  | .atomic f k, g => .atomic f fun s => (k s).bind g
  | .acquire l m k, g => .acquire l m (k.bind g)
  | .release k, g => .release (k.bind g)

instance : Monad (LockAct Λ σ ε) where
  pure a := .ret (.ok a)
  bind := LockAct.bind

/-- A call that takes no lock. -/
def lift : Act σ ε α → LockAct Λ σ ε α
  | .ret o => .ret o
  | .atomic f k => .atomic f fun s => lift (k s)

/-- A read that the call without locks does not make. -/
def look (p : σ → α) : LockAct Λ σ ε α := .atomic (fun s => s) fun s => .ret (.ok (p s))

/-- The guard is dropped however the call ends. -/
def thenRelease : LockAct Λ σ ε α → LockAct Λ σ ε α
  | .ret o => .release (.ret o)
  | .atomic f k => .atomic f fun s => (k s).thenRelease
  | .acquire l m k => .acquire l m k.thenRelease
  | .release k => .release k.thenRelease

/-- The call under a lock. -/
def hold (l : Λ) (m : Mode) (x : LockAct Λ σ ε α) : LockAct Λ σ ε α := .acquire l m x.thenRelease

/-- A critical section that makes one read or one write. -/
def guarded (l : Λ) (m : Mode) (y : Act σ ε α) : LockAct Λ σ ε α := hold l m (lift y)

/-- The outcome of a section, after the write of what it has computed, if it has. -/
def writeBack (store : β → σ → σ) : Outcome ε α × Option β → LockAct Λ σ ε α
  | (o, none) => .ret o
  | (o, some b) => .atomic (store b) fun _ => .ret o

/-- A critical section that reads, and then writes what it has computed from that. -/
def update (l : Λ) (compute : σ → Outcome ε α × Option β) (store : β → σ → σ) : LockAct Λ σ ε α :=
  hold l .write (.atomic (fun s => s) fun s => writeBack store (compute s))

/-- A critical section that reads a second time, unless its first read has settled the outcome. -/
def inspect (l : Λ) (m : Mode) (first : σ → Outcome ε α ⊕ β) (second : β → σ → Outcome ε α) : LockAct Λ σ ε α :=
  hold l m (.atomic (fun s => s) fun s => (first s).elim .ret fun b => lift (.read (second b)))

/-- Sections of locks, one after the other, that read nothing that ever changes. -/
def visit : List Λ → LockAct Λ σ ε Unit
  | [] => .ret (.ok ())
  | l :: ls => .acquire l .read (.release (visit ls))

def attempt : LockAct Λ σ ε α → LockAct Λ σ ε (Except ε α)
  | .ret o => .ret o.caught
  | .atomic f k => .atomic f fun s => (k s).attempt
  | .acquire l m k => .acquire l m k.attempt
  | .release k => .release k.attempt

def zoom (L : Lens τ σ) : LockAct Λ σ ε α → LockAct Λ τ ε α
  | .ret o => .ret o
  | .atomic f k => .atomic (fun t => L.put t (f (L.get t))) fun t => (k (L.get t)).zoom L
  | .acquire l m k => .acquire l m (k.zoom L)
  | .release k => .release (k.zoom L)

def forEach (f : α → LockAct Λ σ ε β) : List α → LockAct Λ σ ε (List β)
  | [] => pure []
  | a :: as => do
    let b ← f a
    let bs ← forEach f as
    pure (b :: bs)

/-- The call without its locks. -/
def unlocked : LockAct Λ σ ε α → LockAct Λ σ ε α
  | .ret o => .ret o
  | .atomic f k => .atomic f fun s => (k s).unlocked
  | .acquire _ _ k => k.unlocked
  | .release k => k.unlocked

/-- The next step of the call takes the lock. -/
def asksFor [DecidableEq Λ] (l : Λ) (m : Mode) : LockAct Λ σ ε α → Bool
  | .acquire l' m' _ => decide (l' = l) && decide (m' = m)
  | _ => false

/-! ### Ranked locks -/

section

variable (rank : Λ → Nat)

/-- A thread that holds the locks `held` can run the call: each lock that it takes ranks above all it holds then, and it
ends with the locks `base`. -/
def Ordered (base : List (Λ × Mode)) : LockAct Λ σ ε α → List (Λ × Mode) → Prop
  | .ret _, held => held = base
  | .atomic _ k, held => ∀ s, (k s).Ordered base held
  | .acquire l m k, held => (∀ h ∈ held, rank h.1 < rank l) ∧ k.Ordered base ((l, m) :: held)
  | .release k, held => ∃ h rest, held = h :: rest ∧ k.Ordered base rest

/-- The call takes locks of rank `n` on only, whatever locks below are held, and releases what it has taken. -/
def Within (n : Nat) (x : LockAct Λ σ ε α) : Prop :=
  ∀ held : List (Λ × Mode), (∀ h ∈ held, rank h.1 < n) → x.Ordered rank held held

variable {rank} {n : Nat}

theorem Ordered.bind {base held : List (Λ × Mode)} {x : LockAct Λ σ ε α} {g : α → LockAct Λ σ ε β}
    (hx : x.Ordered rank base held) (hg : ∀ a, (g a).Ordered rank base base) :
    (x.bind g).Ordered rank base held := by
  induction x generalizing held with
  | ret o =>
    obtain rfl : held = base := hx
    cases o with
    | ok a => exact hg a
    | err e => exact rfl
    | panic => exact rfl
  | atomic f k ih => exact fun s => ih s (hx s)
  | acquire l m k ih => exact ⟨hx.1, ih hx.2⟩
  | release k ih =>
    obtain ⟨h, rest, rfl, hk⟩ := hx
    exact ⟨h, rest, rfl, ih hk⟩

theorem Ordered.thenRelease {base held : List (Λ × Mode)} {h : Λ × Mode} {x : LockAct Λ σ ε α}
    (hx : x.Ordered rank (h :: base) held) : x.thenRelease.Ordered rank base held := by
  induction x generalizing held with
  | ret o => exact ⟨h, base, hx, rfl⟩
  | atomic f k ih => exact fun s => ih s (hx s)
  | acquire l m k ih => exact ⟨hx.1, ih hx.2⟩
  | release k ih =>
    obtain ⟨h', rest, rfl, hk⟩ := hx
    exact ⟨h', rest, rfl, ih hk⟩

theorem within_ret (o : Outcome ε α) : (ret o : LockAct Λ σ ε α).Within rank n := fun _ _ => rfl

theorem within_lift (y : Act σ ε α) : (lift y : LockAct Λ σ ε α).Within rank n := by
  intro held hheld
  induction y with
  | ret o => exact rfl
  | atomic f k ih => exact ih

theorem within_look (p : σ → α) : (look p : LockAct Λ σ ε α).Within rank n := fun _ _ _ => rfl

theorem within_visit {ls : List Λ} (h : ∀ l ∈ ls, n ≤ rank l) : (visit ls : LockAct Λ σ ε Unit).Within rank n := by
  intro held hheld
  induction ls with
  | nil => exact rfl
  | cons l ls ih =>
    refine ⟨fun h' hh => Nat.lt_of_lt_of_le (hheld h' hh) (h l (List.mem_cons_self ..)), _, _, rfl, ?_⟩
    exact ih fun l' hl' => h l' (List.mem_cons_of_mem _ hl')

theorem Within.bind {x : LockAct Λ σ ε α} {g : α → LockAct Λ σ ε β} (hx : x.Within rank n)
    (hg : ∀ a, (g a).Within rank n) : (x >>= g).Within rank n :=
  fun held hheld => (hx held hheld).bind fun a => hg a held hheld

/-- A lock from rank `n` on may be held around a call that takes higher ones only. -/
theorem within_hold {x : LockAct Λ σ ε α} {l : Λ} (m : Mode) (hl : n ≤ rank l) (hx : x.Within rank (rank l + 1)) :
    (hold l m x).Within rank n := by
  intro held hheld
  have hlt : ∀ h ∈ held, rank h.1 < rank l := fun h hh => Nat.lt_of_lt_of_le (hheld h hh) hl
  refine ⟨hlt, Ordered.thenRelease (hx _ ?_)⟩
  intro h hh
  rcases List.mem_cons.1 hh with rfl | hh
  · exact Nat.lt_succ_self _
  · exact Nat.lt_succ_of_lt (hlt h hh)

theorem within_guarded {l : Λ} (m : Mode) (hl : n ≤ rank l) (y : Act σ ε α) : (guarded l m y).Within rank n :=
  within_hold m hl (within_lift y)

theorem within_writeBack (store : β → σ → σ) (r : Outcome ε α × Option β) :
    (writeBack store r : LockAct Λ σ ε α).Within rank n := by
  obtain ⟨o, _ | b⟩ := r
  · exact within_ret o
  · exact fun _ _ _ => rfl

theorem within_update {l : Λ} (hl : n ≤ rank l) (compute : σ → Outcome ε α × Option β) (store : β → σ → σ) :
    (update l compute store : LockAct Λ σ ε α).Within rank n :=
  within_hold _ hl fun held hheld s => within_writeBack store (compute s) held hheld

theorem within_inspect {l : Λ} (m : Mode) (hl : n ≤ rank l) (first : σ → Outcome ε α ⊕ β)
    (second : β → σ → Outcome ε α) : (inspect l m first second : LockAct Λ σ ε α).Within rank n := by
  refine within_hold m hl fun held hheld s => ?_
  show Ordered rank held ((first s).elim .ret fun b => lift (.read (second b))) held
  cases first s with
  | inl o => exact within_ret o held hheld
  | inr b => exact within_lift (.read (second b)) held hheld

theorem Within.mono {x : LockAct Λ σ ε α} {n' : Nat} (hx : x.Within rank n') (h : n ≤ n') : x.Within rank n :=
  fun held hheld => hx held fun l hl => Nat.lt_of_lt_of_le (hheld l hl) h

theorem Ordered.attempt {base held : List (Λ × Mode)} {x : LockAct Λ σ ε α} (hx : x.Ordered rank base held) :
    x.attempt.Ordered rank base held := by
  induction x generalizing held with
  | ret o => exact hx
  | atomic f k ih => exact fun s => ih s (hx s)
  | acquire l m k ih => exact ⟨hx.1, ih hx.2⟩
  | release k ih =>
    obtain ⟨h, rest, rfl, hk⟩ := hx
    exact ⟨h, rest, rfl, ih hk⟩

theorem Ordered.zoom {base held : List (Λ × Mode)} {x : LockAct Λ σ ε α} (hx : x.Ordered rank base held)
    (L : Lens τ σ) : (x.zoom L).Ordered rank base held := by
  induction x generalizing held with
  | ret o => exact hx
  | atomic f k ih => exact fun t => ih _ (hx _)
  | acquire l m k ih => exact ⟨hx.1, ih hx.2⟩
  | release k ih =>
    obtain ⟨h, rest, rfl, hk⟩ := hx
    exact ⟨h, rest, rfl, ih hk⟩

theorem Within.attempt {x : LockAct Λ σ ε α} (hx : x.Within rank n) : x.attempt.Within rank n :=
  fun held hheld => (hx held hheld).attempt

theorem Within.zoom {x : LockAct Λ σ ε α} (hx : x.Within rank n) (L : Lens τ σ) : (x.zoom L).Within rank n :=
  fun held hheld => (hx held hheld).zoom L

theorem Within.forEach {f : α → LockAct Λ σ ε β} (h : ∀ a, (f a).Within rank n) (l : List α) :
    (forEach f l).Within rank n := by
  induction l with
  | nil => exact within_ret _
  | cons a l ih => exact (h a).bind fun b => ih.bind fun bs => within_ret _

end

end LockAct

end Conc
