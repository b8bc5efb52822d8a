import Hvos.Lib.Critical
import Mathlib.Logic.Equiv.Basic
import Mathlib.Order.Nat

/-!
# Sync/SafeLock — `safe_lock` and `safe_unlock` on any number of CPUs, with interrupts

`sync.c` and `sync.h` one instruction at a time: `pushfq`, `cli`, the loop around `atomic_exchange`,
the code under the lock, the store of `0`, `popfq`.  A CPU runs the topmost of its **contexts**; an
interrupt puts a new one on top wherever the interrupt flag is set, `iretq` takes it off, and
outside the lock's code the scheduler may leave the whole stack of contexts for that of another
thread.  Handlers and threads alike may call the code under the lock.

* `Kernel.step_cases` — seen without flags and stacks, every step is a step of the lock in
  `Lib/Critical` or no step, so the calls are serial.
* `Masked` — between its `cli` and its `popfq` a context is on top of its CPU with interrupts off.

`safeLock_sound` puts them together: one context at a time, none of them interrupted or switched
away, so nobody waits for a context below itself, and the holder alone can always bring the lock to
its release.
-/

namespace Hvos.Sync

open Function

open Critical (Body World Act Serial)

variable {ι C σ κ ρ : Type*}

/-! ## Contexts -/

/-- Where a context is in `safe_lock` … `safe_unlock`; of the saved `rflags`, the interrupt flag. -/
inductive Stage (C κ ρ : Type*)
  | away
  /-- Behind `pushfq`. -/
  | pushed (c : C) (flag : Bool)
  /-- Behind `cli`, in the loop. -/
  | waiting (c : C) (flag : Bool)
  | inside (c : C) (flag : Bool) (k : κ)
  /-- The code under the lock is through; the store of `0` is next. -/
  | leaving (c : C) (flag : Bool) (r : ρ)
  /-- Behind the store; `popfq` is next. -/
  | released (flag : Bool)

namespace Stage

/-- The lock's view of a context. -/
def place : Stage C κ ρ → Critical.Place C κ ρ
  | .waiting c _ => .waiting c
  | .inside c _ k => .inside c k
  | .leaving c _ r => .leaving c r
  | .away | .pushed .. | .released _ => .away

/-- Between `cli` and `popfq`. -/
def Off : Stage C κ ρ → Prop
  | .waiting .. | .inside .. | .leaving .. | .released _ => True
  | .away | .pushed .. => False

/-- In the loop. -/
def Waits : Stage C κ ρ → Prop
  | .waiting .. => True
  | _ => False

variable {t : Stage C κ ρ}

theorem Waits.off (h : t.Waits) : t.Off := by
  cases t with
  | waiting => trivial
  | away | pushed | inside | leaving | released => exact h.elim

theorem Waits.not_holds (h : t.Waits) : ¬t.place.Holds := by
  cases t with
  | waiting c _ => exact Critical.Place.not_holds_waiting c
  | away | pushed | inside | leaving | released => exact h.elim

theorem off_of_holds (h : t.place.Holds) : t.Off := by
  cases t with
  | waiting | inside | leaving | released => trivial
  | away | pushed => exact h

end Stage

/-- Where a stack of contexts is: on a CPU, or with a thread that is not on a CPU. -/
inductive Seat (ι : Type*)
  | cpu (i : ι)
  | parked (n : ℕ)
  deriving DecidableEq

/-- The lock and what it guards, the contexts with the next unused name, the stacks of contexts, the
topmost first, and the interrupt flags of the CPUs. -/
structure Kernel (ι C σ κ ρ : Type*) where
  locked : Bool
  shared : σ
  stage : ℕ → Stage C κ ρ
  log : List (ℕ × C × ρ)
  stack : Seat ι → List ℕ
  fresh : ℕ
  intFlag : ι → Bool

/-- What a CPU does next. -/
inductive Event (ι C : Type*)
  /-- `sti`, `cli` or `popfq` outside the lock's code. -/
  | setFlag (i : ι) (flag : Bool)
  /-- `safe_lock` is called: `pushfq`. -/
  | pushfq (i : ι) (c : C)
  | cli (i : ι)
  | atomicExchange (i : ι)
  /-- One access of the code under the lock. -/
  | work (i : ι)
  /-- `lock->locked = 0`. -/
  | unlock (i : ι)
  | popfq (i : ι)
  | interrupt (i : ι)
  | iretq (i : ι)
  /-- The scheduler goes on with the parked thread `n`, which finds the interrupt flag at `flag`. -/
  | switch (i : ι) (n : ℕ) (flag : Bool)
  /-- A new thread. -/
  | spawn (n : ℕ)

namespace Kernel

/-- The context that runs on CPU `i`, with where it is. -/
def running (k : Kernel ι C σ κ ρ) (i : ι) : Option (ℕ × Stage C κ ρ) :=
  (k.stack (.cpu i)).head?.map fun x => (x, k.stage x)

/-- The context `x` is at `t` now. -/
def move (k : Kernel ι C σ κ ρ) (x : ℕ) (t : Stage C κ ρ) : Kernel ι C σ κ ρ :=
  { k with stage := update k.stage x t }

/-- The lock and the contexts, without the CPUs. -/
def world (k : Kernel ι C σ κ ρ) : World ℕ C σ κ ρ :=
  ⟨k.locked, k.shared, fun x => (k.stage x).place, k.log⟩

/-- No context is in two places. -/
structure Apart (k : Kernel ι C σ κ ρ) : Prop where
  unique : ∀ {a b x}, x ∈ k.stack a → x ∈ k.stack b → a = b
  named : ∀ {a x}, x ∈ k.stack a → x < k.fresh

/-- Nobody has come to the lock yet. -/
structure Boot (s0 : σ) (k : Kernel ι C σ κ ρ) : Prop where
  locked : k.locked = false
  shared : k.shared = s0
  stage : k.stage = fun _ => .away
  log : k.log = []
  apart : k.Apart

variable {b : Body C σ κ ρ} {k k' : Kernel ι C σ κ ρ} {i j : ι} {x : ℕ}

theorem stage_of_running (h : k.running i = some (x, t)) :
    (k.stack (.cpu i)).head? = some x ∧ k.stage x = t := by
  obtain ⟨y, hy, heq⟩ := Option.map_eq_some_iff.1 h
  obtain ⟨rfl, rfl⟩ := Prod.mk.inj heq
  exact ⟨hy, rfl⟩

/-- The running context is where it was moved. -/
theorem running_move {t' : Stage C κ ρ} (h : k.running i = some (x, t))
    (hstage : k'.stage = update k.stage x t') (hstack : k'.stack = k.stack) :
    k'.running i = some (x, t') := by
  rw [running, hstack, (stage_of_running h).1, Option.map_some, hstage, update_self]

theorem place_of_running (h : k.running i = some (x, t)) : k.world.place x = t.place :=
  congrArg Stage.place (stage_of_running h).2

/-- A context moves, and with it the lock or what it guards. -/
theorem world_move (x : ℕ) (t : Stage C κ ρ) (locked : Bool) (s : σ) (log : List (ℕ × C × ρ)) :
    ({ k.move x t with locked := locked, shared := s, log := log } : Kernel ι C σ κ ρ).world =
      { k.world.move x t.place with locked := locked, shared := s, log := log } := by
  refine World.ext rfl rfl (funext fun y => ?_) rfl
  by_cases hy : y = x
  · subst hy
    simp [world, move, World.move]
  · simp [world, move, World.move, update_of_ne hy]

/-- A context that stays where it is for the lock. -/
theorem world_move_self (h : k.world.place x = t.place) : (k.move x t).world = k.world := by
  have hmove := world_move (k := k) x t k.locked k.shared k.log
  rw [← h, World.move, update_eq_self] at hmove
  exact hmove

section Step

variable [DecidableEq ι]

/-- The interrupt flag of CPU `i` is `flag` now. -/
def setFlag (k : Kernel ι C σ κ ρ) (i : ι) (flag : Bool) : Kernel ι C σ κ ρ :=
  { k with intFlag := update k.intFlag i flag }

/-- **One instruction of one CPU.** -/
def step (b : Body C σ κ ρ) : Event ι C → Kernel ι C σ κ ρ → Option (Kernel ι C σ κ ρ)
  | .setFlag i flag, k =>
    match k.running i with
    | some (_, .away) => some (k.setFlag i flag)
    | _ => none
  | .pushfq i c, k =>
    match k.running i with
    | some (x, .away) => some (k.move x (.pushed c (k.intFlag i)))
    | _ => none
  | .cli i, k =>
    match k.running i with
    | some (x, .pushed c flag) => some ((k.move x (.waiting c flag)).setFlag i false)
    | _ => none
  | .atomicExchange i, k =>
    match k.running i with
    | some (x, .waiting c flag) =>
      if k.locked then some k
      else some { k.move x (.inside c flag (b.start c)) with locked := true }
    | _ => none
  | .work i, k =>
    match k.running i with
    | some (x, .inside c flag l) =>
      match b.next l k.shared with
      | (s, .inl l') => some { k.move x (.inside c flag l') with shared := s }
      | (s, .inr r) => some { k.move x (.leaving c flag r) with shared := s }
    | _ => none
  | .unlock i, k =>
    match k.running i with
    | some (x, .leaving c flag r) =>
      some { k.move x (.released flag) with locked := false, log := k.log ++ [(x, c, r)] }
    | _ => none
  | .popfq i, k =>
    match k.running i with
    | some (x, .released flag) => some ((k.move x .away).setFlag i flag)
    | _ => none
  | .interrupt i, k =>
    if k.intFlag i then
      some { k.setFlag i false with
        stack := update k.stack (.cpu i) (k.fresh :: k.stack (.cpu i))
        fresh := k.fresh + 1 }
    else none
  | .iretq i, k =>
    match k.running i, (k.stack (.cpu i)).tail with
    | some (_, .away), y :: rest =>
      -- Only a context with interrupts on can have been interrupted.
      some { k.setFlag i true with stack := update k.stack (.cpu i) (y :: rest) }
    | _, _ => none
  | .switch i n flag, k =>
    match k.running i, k.stack (.parked n) with
    | some (_, .away), y :: rest =>
      some { k.setFlag i flag with
        stack := update (update k.stack (.cpu i) (y :: rest)) (.parked n)
          (k.stack (.cpu i)) }
    | _, _ => none
  | .spawn n, k =>
    match k.stack (.parked n) with
    | [] => some { k with
        stack := update k.stack (.parked n) [k.fresh], fresh := k.fresh + 1 }
    | _ => none

end Step

/-! ## What an instruction can do -/

/-- A step outside the lock's code: a CPU whose flag or stack changes had its interrupts on, or its
running context was away. -/
structure Outside (k k' : Kernel ι C σ κ ρ) : Prop where
  world : k'.world = k.world
  stage : k'.stage = k.stage
  apart : k.Apart → k'.Apart
  cpu : ∀ i, (k'.stack (.cpu i) = k.stack (.cpu i) ∧ k'.intFlag i = k.intFlag i) ∨
    k.intFlag i = true ∨ ∃ x, k.running i = some (x, .away)

/-- A step of the lock's code: the running context `x` of CPU `j` moves from `t` to `t'`. -/
structure Inside (b : Body C σ κ ρ) (j : ι) (x : ℕ) (t t' : Stage C κ ρ)
    (k k' : Kernel ι C σ κ ρ) : Prop where
  running : k.running j = some (x, t)
  stage : k'.stage = update k.stage x t'
  stack : k'.stack = k.stack
  fresh : k'.fresh = k.fresh
  others : ∀ i, i ≠ j → k'.intFlag i = k.intFlag i
  flag : t'.Off → k'.intFlag j = false ∨ (t.Off ∧ k'.intFlag j = k.intFlag j)
  world : k'.world = k.world ∨ ∃ a, Critical.step b a k.world = some k'.world

/-- A step of the lock's code that leaves the flags alone. -/
theorem inside_of_move (t' : Stage C κ ρ) (hrun : k.running j = some (x, t)) (hoff : t'.Off → t.Off)
    (hk : k'.stage = update k.stage x t' ∧ k'.stack = k.stack ∧ k'.fresh = k.fresh ∧
      k'.intFlag = k.intFlag)
    (hworld : k'.world = k.world ∨ ∃ a, Critical.step b a k.world = some k'.world) :
    Inside b j x t t' k k' where
  running := hrun
  stage := hk.1
  stack := hk.2.1
  fresh := hk.2.2.1
  others i _ := by rw [hk.2.2.2]
  flag h := .inr ⟨hoff h, by rw [hk.2.2.2]⟩
  world := hworld

/-- Contexts change their seats, or go. -/
theorem Apart.reseat (h : k.Apart) (f : Seat ι → Seat ι) (hf : Function.Injective f)
    {k' : Kernel ι C σ κ ρ} (hsub : ∀ a, k'.stack a ⊆ k.stack (f a)) (hfresh : k'.fresh = k.fresh) :
    k'.Apart := by
  refine ⟨fun {a c x} ha hc => hf (h.unique (hsub a ha) (hsub c hc)), fun {a x} ha => ?_⟩
  exact hfresh ▸ h.named (hsub a ha)

variable {flag : Bool}

section Step

variable [DecidableEq ι]

/-- A new context on top. -/
theorem Apart.push (h : k.Apart) (a : Seat ι) {k' : Kernel ι C σ κ ρ}
    (hstack : k'.stack = update k.stack a (k.fresh :: k.stack a))
    (hfresh : k'.fresh = k.fresh + 1) : k'.Apart := by
  have hmem : ∀ {c x}, x ∈ k'.stack c → (x = k.fresh ∧ c = a) ∨ x ∈ k.stack c := by
    intro c x hx
    rw [hstack] at hx
    by_cases hc : c = a
    · subst hc
      rw [update_self] at hx
      exact (List.mem_cons.1 hx).imp_left fun h => ⟨h, rfl⟩
    · exact .inr (by rwa [update_of_ne hc] at hx)
  refine ⟨fun {c d x} hc hd => ?_, fun {c x} hc => ?_⟩
  · rcases hmem hc with ⟨rfl, rfl⟩ | hc <;> rcases hmem hd with ⟨hx, rfl⟩ | hd
    · rfl
    · exact absurd (h.named hd) (lt_irrefl _)
    · exact absurd (h.named hc) (hx ▸ lt_irrefl _)
    · exact h.unique hc hd
  · rw [hfresh]
    rcases hmem hc with ⟨rfl, -⟩ | hc
    · exact Nat.lt_succ_self _
    · exact Nat.lt_succ_of_lt (h.named hc)

/-- A step that changes the flag of CPU `i`, and no stack but those of `i` and of threads that are
not on a CPU. -/
theorem outside_of_cpu (hk : k'.world = k.world ∧ k'.stage = k.stage)
    (hflag : k'.intFlag = update k.intFlag i flag) (hapart : k.Apart → k'.Apart)
    (hstack : ∀ j, j ≠ i → k'.stack (.cpu j) = k.stack (.cpu j))
    (h : k.intFlag i = true ∨ ∃ x, k.running i = some (x, .away)) : k.Outside k' where
  world := hk.1
  stage := hk.2
  apart := hapart
  cpu j := by
    by_cases hj : j = i
    · exact .inr (hj ▸ h)
    · exact .inl ⟨hstack j hj, hflag ▸ update_of_ne hj ..⟩

/-- **Every instruction is outside or inside the lock's code.** -/
theorem step_cases {e : Event ι C} (h : step b e k = some k') :
    k.Outside k' ∨ ∃ j x t t', Inside b j x t t' k k' := by
  cases e with
  | setFlag i flag =>
    simp only [step] at h
    split at h
    next x hrun =>
      cases h
      exact .inl (outside_of_cpu ⟨rfl, rfl⟩ rfl (fun h => ⟨h.unique, h.named⟩) (fun _ _ => rfl)
        (.inr ⟨x, hrun⟩))
    next => cases h
  | pushfq i c =>
    simp only [step] at h
    split at h
    next x hrun =>
      cases h
      have hx := place_of_running hrun
      exact .inr ⟨i, x, _, _, inside_of_move (.pushed c _) hrun id ⟨rfl, rfl, rfl, rfl⟩
        (.inl (world_move_self hx))⟩
    next => cases h
  | cli i =>
    simp only [step] at h
    split at h
    next x c flag hrun =>
      cases h
      have hx : k.world.place x = .away := place_of_running hrun
      refine .inr ⟨i, x, .pushed c flag, .waiting c flag, ?_⟩
      refine
        { running := hrun
          stage := rfl
          stack := rfl
          fresh := rfl
          others := fun j hj => update_of_ne hj ..
          flag := fun _ => .inl (update_self ..)
          world := .inr ⟨.call x c, ?_⟩ }
      simp only [Critical.step, hx]
      exact congrArg some (world_move x (.waiting c flag) k.locked k.shared k.log).symm
    next => cases h
  | atomicExchange i =>
    simp only [step] at h
    split at h
    next x c flag hrun =>
      have hx : k.world.place x = .waiting c := place_of_running hrun
      split at h
      next hlocked =>
        cases h
        have hstay : k.stage = update k.stage x (.waiting c flag) := by
          rw [← (stage_of_running hrun).2, update_eq_self]
        exact .inr ⟨i, x, _, _, inside_of_move (.waiting c flag) hrun id ⟨hstay, rfl, rfl, rfl⟩
          (.inl rfl)⟩
      next hlocked =>
        cases h
        refine .inr ⟨i, x, _, _, inside_of_move (.inside c flag (b.start c)) hrun id
          ⟨rfl, rfl, rfl, rfl⟩ (.inr ⟨.exchange x, ?_⟩)⟩
        simp only [Critical.step, hx, show k.world.locked = k.locked from rfl, if_neg hlocked]
        exact congrArg some (world_move x (.inside c flag (b.start c)) true k.shared k.log).symm
    next => cases h
  | work i =>
    simp only [step] at h
    split at h
    next x c flag l hrun =>
      have hx : k.world.place x = .inside c l := place_of_running hrun
      split at h
      next s l' hn =>
        cases h
        refine .inr ⟨i, x, _, _, inside_of_move (.inside c flag l') hrun id ⟨rfl, rfl, rfl, rfl⟩
          (.inr ⟨.work x, ?_⟩)⟩
        simp only [Critical.step, hx, show k.world.shared = k.shared from rfl, hn]
        exact congrArg some (world_move x (.inside c flag l') k.locked s k.log).symm
      next s r hn =>
        cases h
        refine .inr ⟨i, x, _, _, inside_of_move (.leaving c flag r) hrun id ⟨rfl, rfl, rfl, rfl⟩
          (.inr ⟨.work x, ?_⟩)⟩
        simp only [Critical.step, hx, show k.world.shared = k.shared from rfl, hn]
        exact congrArg some (world_move x (.leaving c flag r) k.locked s k.log).symm
    next => cases h
  | unlock i =>
    simp only [step] at h
    split at h
    next x c flag r hrun =>
      have hx : k.world.place x = .leaving c r := place_of_running hrun
      cases h
      refine .inr ⟨i, x, _, _, inside_of_move (.released flag) hrun id ⟨rfl, rfl, rfl, rfl⟩
        (.inr ⟨.unlock x, ?_⟩)⟩
      simp only [Critical.step, hx]
      exact congrArg some (world_move x (.released flag) false k.shared _).symm
    next => cases h
  | popfq i =>
    simp only [step] at h
    split at h
    next x flag hrun =>
      cases h
      have hx : k.world.place x = .away := place_of_running hrun
      refine .inr ⟨i, x, .released flag, .away, ?_⟩
      exact
        { running := hrun
          stage := rfl
          stack := rfl
          fresh := rfl
          others := fun j hj => update_of_ne hj ..
          flag := False.elim
          world := .inl (world_move_self (t := .away) hx) }
    next => cases h
  | interrupt i =>
    simp only [step] at h
    split at h
    next hflag =>
      cases h
      exact .inl (outside_of_cpu ⟨rfl, rfl⟩ rfl (fun h => h.push (.cpu i) rfl rfl)
        (fun j hj => update_of_ne (by simpa using hj) ..) (.inl hflag))
    next => cases h
  | iretq i =>
    simp only [step] at h
    split at h
    next x y rest hrun htail =>
      cases h
      have hsub : y :: rest ⊆ k.stack (.cpu i) := htail ▸ (List.tail_sublist _).subset
      refine .inl (outside_of_cpu ⟨rfl, rfl⟩ rfl (fun h => h.reseat id injective_id ?_ rfl)
        (fun j hj => update_of_ne (by simpa using hj) ..) (.inr ⟨x, hrun⟩))
      intro a
      by_cases ha : a = .cpu i
      · subst ha
        simpa using hsub
      · simp [update_of_ne ha]
    next => cases h
  | switch i n flag =>
    simp only [step] at h
    split at h
    next x y rest hrun hnext =>
      cases h
      refine .inl (outside_of_cpu ⟨rfl, rfl⟩ rfl (fun h => ?_) (fun j hj => ?_) (.inr ⟨x, hrun⟩))
      · refine h.reseat (Equiv.swap (.cpu i) (.parked n)) (Equiv.injective _) (fun a => ?_) rfl
        rcases eq_or_ne a (.parked n) with rfl | hp
        · simp
        · rcases eq_or_ne a (.cpu i) with rfl | hc
          · simp [hnext]
          · simp [update_of_ne hp, update_of_ne hc,
              Equiv.swap_apply_of_ne_of_ne hc hp]
      · simp [update_of_ne, hj]
    next => cases h
  | spawn n =>
    simp only [step] at h
    split at h
    next hnil =>
      cases h
      refine .inl ⟨rfl, rfl, fun h => ?_, fun i => .inl ⟨?_, rfl⟩⟩
      · exact h.push (.parked n) (by rw [hnil]) rfl
      · simp [update_of_ne]
    next => cases h

end Step

/-! ## Interrupts are off under the lock -/

/-- **Between its `cli` and its `popfq` a context is on top of a CPU that has its interrupts
off.** -/
def Masked (k : Kernel ι C σ κ ρ) : Prop :=
  ∀ x, (k.stage x).Off → ∃ i, (k.stack (.cpu i)).head? = some x ∧ k.intFlag i = false

/-- A context is on top of one CPU at most. -/
theorem Apart.head_unique (h : k.Apart) (hi : (k.stack (.cpu i)).head? = some x)
    (hj : (k.stack (.cpu j)).head? = some x) : i = j :=
  Seat.cpu.inj (h.unique (List.mem_of_mem_head? hi) (List.mem_of_mem_head? hj))

theorem Masked.outside (h : k.Masked) (ho : k.Outside k') : k'.Masked := by
  intro x hx
  rw [ho.stage] at hx
  obtain ⟨i, hi, hflag⟩ := h x hx
  rcases ho.cpu i with ⟨hstack, hsame⟩ | hon | ⟨y, hy⟩
  · exact ⟨i, hstack ▸ hi, hsame ▸ hflag⟩
  · simp [hflag] at hon
  · obtain ⟨hhead, haway⟩ := stage_of_running hy
    obtain rfl := Option.mem_unique hi hhead
    rw [haway] at hx
    exact hx.elim

theorem Masked.inside {y : ℕ} {t' : Stage C κ ρ} (h : k.Masked) (ha : k.Apart)
    (hi : Inside b j y t t' k k') : k'.Masked := by
  obtain ⟨hhead, ht⟩ := stage_of_running hi.running
  intro x hx
  rw [hi.stage] at hx
  by_cases hxy : x = y
  · subst hxy
    rw [update_self] at hx
    refine ⟨j, hi.stack ▸ hhead, ?_⟩
    rcases hi.flag hx with hoff | ⟨hoff, hsame⟩
    · exact hoff
    · obtain ⟨i, hhead', hflag⟩ := h x (ht ▸ hoff)
      rw [hsame, ha.head_unique hhead hhead', hflag]
  · rw [update_of_ne hxy] at hx
    obtain ⟨i, hhead', hflag⟩ := h x hx
    have hij : i ≠ j := by
      rintro rfl
      exact hxy (Option.mem_unique hhead' hhead)
    exact ⟨i, hi.stack ▸ hhead', (hi.others i hij).trans hflag⟩

/-! ## Whole runs -/

/-- The calls are serial, interrupts are off under the lock, and no context is in two places. -/
structure Guarded (b : Body C σ κ ρ) (s0 : σ) (k : Kernel ι C σ κ ρ) : Prop where
  serial : Serial b s0 k.world
  masked : k.Masked
  apart : k.Apart

variable {s0 s : σ}

theorem Boot.guarded (h : k.Boot s0) : Guarded b s0 k where
  serial := by
    have hworld : k.world = World.fresh s0 := by
      rw [world, h.locked, h.shared, h.stage, h.log]
      rfl
    exact hworld ▸ Critical.serial_fresh s0
  masked x hx := by
    rw [h.stage] at hx
    exact hx.elim
  apart := h.apart

theorem Serial.of_world (h : Serial b s0 k.world)
    (hw : k'.world = k.world ∨ ∃ a, Critical.step b a k.world = some k'.world) :
    Serial b s0 k'.world := by
  rcases hw with hw | ⟨a, ha⟩
  · exact hw ▸ h
  · exact Critical.serial_step a _ _ h ha

section Runs

variable [DecidableEq ι]

/-- **Every instruction keeps all three.** -/
theorem guarded_step (e : Event ι C) (k k' : Kernel ι C σ κ ρ) (h : Guarded b s0 k)
    (hstep : step b e k = some k') : Guarded b s0 k' := by
  rcases step_cases hstep with hout | ⟨j, x, t, t', hin⟩
  · exact ⟨Serial.of_world h.serial (.inl hout.world), h.masked.outside hout, hout.apart h.apart⟩
  · refine ⟨Serial.of_world h.serial hin.world, h.masked.inside h.apart hin, ?_⟩
    exact h.apart.reseat id injective_id (fun a => by simp [hin.stack]) hin.fresh

theorem guarded_of_run {k0 : Kernel ι C σ κ ρ} {es : List (Event ι C)} (h0 : k0.Boot s0)
    (h : Run (step b) k0 es k) : Guarded b s0 k :=
  h.invariant guarded_step h0.guarded

theorem step_work {c : C} {l l' : κ} (hrun : k.running i = some (x, .inside c flag l))
    (hn : b.next l k.shared = (s, .inl l')) :
    step b (.work i) k = some { k.move x (.inside c flag l') with shared := s } := by
  simp only [step, hrun, hn]

theorem step_work_last {c : C} {l : κ} {r : ρ} (hrun : k.running i = some (x, .inside c flag l))
    (hn : b.next l k.shared = (s, .inr r)) :
    step b (.work i) k = some { k.move x (.leaving c flag r) with shared := s } := by
  simp only [step, hrun, hn]

theorem step_unlock {c : C} {r : ρ} (hrun : k.running i = some (x, .leaving c flag r)) :
    step b (.unlock i) k =
      some { k.move x (.released flag) with locked := false, log := k.log ++ [(x, c, r)] } := by
  simp only [step, hrun]

/-- The code under the lock, run to its end by the CPU that is in it. -/
theorem run_ends {c : C} {l : κ} {r : ρ} {s' : σ} (h : b.Ends l s r s') (hs : k.shared = s)
    (hrun : k.running i = some (x, .inside c flag l)) :
    ∃ n k', Run (step b) k (List.replicate n (.work i)) k' ∧ k'.shared = s' ∧
      k'.running i = some (x, .leaving c flag r) := by
  induction h generalizing k with
  | ret hn =>
    subst hs
    exact ⟨1, _, .single (step_work_last hrun hn), rfl, running_move hrun rfl rfl⟩
  | @step _ l' _ t _ _ hn _ ih =>
    subst hs
    obtain ⟨n, k', hrest, hs, hrun'⟩ := ih (k := { k.move x (.inside c flag l') with shared := t })
      rfl (running_move hrun rfl rfl)
    exact ⟨n + 1, k', (Run.single (step_work hrun hn)).append hrest, hs, hrun'⟩

/-- **The holder alone brings the lock to its release.** -/
theorem Guarded.exists_release {spec : C → σ → ρ × σ} (hb : b.Computes spec) (h : Guarded b s0 k)
    (hlocked : k.locked = true) :
    ∃ i n k', Run (step b) k (List.replicate n (.work i) ++ [.unlock i]) k' ∧
      k'.locked = false := by
  obtain ⟨x, hx⟩ := h.serial.exists_holder hlocked
  obtain ⟨i, hhead, -⟩ := h.masked x (Stage.off_of_holds hx)
  obtain ⟨-, s, -, hprog, -⟩ := h.serial.holder hx
  have hrun : k.running i = some (x, k.stage x) := by rw [running, hhead, Option.map_some]
  change Critical.Progress b s k.shared (k.stage x).place at hprog
  cases hstage : k.stage x with
  | away | pushed | waiting | released =>
    rw [hstage] at hprog
    exact hprog.elim
  | inside c flag l =>
    rw [hstage] at hprog hrun
    obtain ⟨n, k', hwork, -, hrun'⟩ := run_ends (Body.Steps.rest hprog (hb c s)) rfl hrun
    exact ⟨i, n, _, hwork.append (.single (step_unlock hrun')), rfl⟩
  | leaving c flag r =>
    rw [hstage] at hrun
    exact ⟨i, 0, _, .single (step_unlock hrun), rfl⟩

/-- **`safe_lock` is sound**, on any number of CPUs and with interrupt handlers that take the lock
themselves: one context holds it; from its `cli` to its `popfq` a context is the running one of a
CPU with interrupts off; whoever waits does so on another CPU than the holder, which can always run
on to its release by itself; and while the lock is free, the guarded state is that of the completed
calls made one after the other. -/
theorem safeLock_sound {s0 : σ} {spec : C → σ → ρ × σ} [DecidableEq ρ] (hb : b.Computes spec)
    {k0 : Kernel ι C σ κ ρ} {es : List (Event ι C)} (h0 : k0.Boot s0) (h : Run (step b) k0 es k) :
    (∀ x y, (k.stage x).place.Holds → (k.stage y).place.Holds → x = y) ∧
      (∀ x, (k.stage x).Off → ∃ i, (k.stack (.cpu i)).head? = some x ∧ k.intFlag i = false) ∧
      (∀ x y, (k.stage x).Waits → (k.stage y).place.Holds → ∃ i j, i ≠ j ∧
        (k.stack (.cpu i)).head? = some x ∧ (k.stack (.cpu j)).head? = some y) ∧
      (k.locked = true → ∃ i n k', Run (step b) k (List.replicate n (.work i) ++ [.unlock i]) k' ∧
        k'.locked = false) ∧
      (k.locked = false → Run (Body.atomic spec) s0 k.log k.shared) := by
  have hg := guarded_of_run h0 h
  refine ⟨fun x y hx hy => hg.serial.unique hy hx, hg.masked, fun x y hx hy => ?_,
    hg.exists_release hb, fun hfree => (hg.serial.idle hfree).run hb⟩
  obtain ⟨i, hi, -⟩ := hg.masked x hx.off
  obtain ⟨j, hj, -⟩ := hg.masked y (Stage.off_of_holds hy)
  refine ⟨i, j, ?_, hi, hj⟩
  rintro rfl
  obtain rfl := Option.mem_unique hi hj
  exact hx.not_holds hy

/-- Two CPUs with one context each, interrupts on. -/
def twoCpus (s0 : σ) : Kernel Bool C σ κ ρ where
  locked := false
  shared := s0
  stage := fun _ => .away
  log := []
  stack
    | .cpu i => [i.toNat]
    | .parked _ => []
  fresh := 2
  intFlag := fun _ => true

theorem boot_twoCpus (s0 : σ) : (twoCpus s0 : Kernel Bool C σ κ ρ).Boot s0 := by
  refine ⟨rfl, rfl, rfl, rfl, ⟨fun {a b x} ha hb => ?_, fun {a x} ha => ?_⟩⟩
  · rcases a with (_ | _) | _ <;> rcases b with (_ | _) | _ <;> simp_all [twoCpus]
  · rcases a with (_ | _) | _ <;> simp_all [twoCpus]

/-- A number that is read in one access and stored, one higher, in the next. -/
def readThenStore : Body Unit ℕ (Option ℕ) ℕ where
  start _ := none
  next
    | none, n => (n, .inl (some n))
    | some v, _ => (v + 1, .inr v)

/-- CPU 0 is interrupted behind its `pushfq` and the handler takes the lock; CPU 1 comes to the lock
while the handler is between its two accesses, and waits. -/
theorem safeLock_sound_twoCpus : ∃ k, Run (step readThenStore) (twoCpus 5)
        [.pushfq false (), .interrupt false, .pushfq false (), .cli false, .atomicExchange false,
          .work false, .pushfq true (), .cli true, .atomicExchange true] k ∧
      (∃ i n k', Run (step readThenStore) k (List.replicate n (.work i) ++ [.unlock i]) k' ∧
        k'.locked = false) ∧
      ∃ i j, i ≠ j ∧ (k.stack (.cpu i)).head? = some 1 ∧ (k.stack (.cpu j)).head? = some 2 := by
  have hcomputes : readThenStore.Computes fun _ n => (n, n + 1) := fun _ _ =>
    .step rfl (.ret rfl)
  refine Run.exists_of_exec rfl fun hrun => ?_
  obtain ⟨-, -, hwait, hrelease, -⟩ := safeLock_sound hcomputes (boot_twoCpus 5) hrun
  exact ⟨hrelease rfl, hwait 1 2 trivial trivial⟩

end Runs

end Kernel

end Hvos.Sync
