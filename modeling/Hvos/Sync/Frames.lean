import Hvos.Memory.PmmRuns
import Hvos.Sync.SafeLock

/-!
# Sync/Frames — `pmm_alloc` and `pmm_free` under `pmm_lock`, on any number of CPUs

The code of `pmm.c` between `safe_lock` and `safe_unlock`, one access to `bitmap`, `total_pages` or
`used_pages` at a time: `bitmap_set` and `used_pages++` load and then store.  Made alone a call does
what `Memory/Pmm` says (`frames_computes`), so by `Sync/SafeLock` the completed calls of all CPUs
and interrupt handlers are a run of `pmm_alloc` and `pmm_free` as whole functions.
-/

namespace Hvos.Sync

open Critical (Body)
open Memory (Pmm Call Ledger Books Accounted)

/-! ## The code under `pmm_lock` -/

/-- Where `pmm_alloc` or `pmm_free` is, with its local variables. -/
inductive FramePc
  /-- `i < total_pages`. -/
  | bound (i : ℕ)
  /-- `bitmap_test(i)`. -/
  | test (i : ℕ)
  /-- The load and the store of `bitmap_set(i)`. -/
  | setLoad (i : ℕ)
  | setStore (i : ℕ) (byte : BitVec 8)
  /-- The load and the store of `used_pages++`. -/
  | countLoad (i : ℕ)
  | countStore (i : ℕ) (used : UInt64)
  /-- `bitmap_test(page_index)`. -/
  | freeTest (page : ℕ)
  /-- The load and the store of `bitmap_clear(page_index)`. -/
  | clearLoad (page : ℕ)
  | clearStore (page : ℕ) (byte : BitVec 8)
  /-- The load and the store of `used_pages--`. -/
  | uncountLoad
  | uncountStore (used : UInt64)

/-- One access.  `pmm_free` returns nothing, written `0`. -/
def FramePc.next : FramePc → Pmm → Pmm × (FramePc ⊕ ℕ)
  | .bound i, p => (p, if i < p.totalPages then .inl (.test i) else .inr 0)
  | .test i, p => (p, .inl (if p.bitmapTest i then .bound (i + 1) else .setLoad i))
  | .setLoad i, p => (p, .inl (.setStore i (p.bitmap (i / 8))))
  | .setStore i byte, p =>
    ({ p with bitmap := Function.update p.bitmap (i / 8) (byte ||| (1#8 <<< (i % 8))) },
      .inl (.countLoad i))
  | .countLoad i, p => (p, .inl (.countStore i p.usedPages))
  | .countStore i used, p => ({ p with usedPages := used + 1 }, .inr (i * 4096 % 2 ^ 64))
  | .freeTest page, p => (p, if p.bitmapTest page then .inl (.clearLoad page) else .inr 0)
  | .clearLoad page, p => (p, .inl (.clearStore page (p.bitmap (page / 8))))
  | .clearStore page byte, p =>
    ({ p with bitmap := Function.update p.bitmap (page / 8) (byte &&& ~~~(1#8 <<< (page % 8))) },
      .inl .uncountLoad)
  | .uncountLoad, p => (p, .inl (.uncountStore p.usedPages))
  | .uncountStore used, p => ({ p with usedPages := used - 1 }, .inr 0)

/-- **`pmm_alloc` and `pmm_free` between the lock and the unlock.** -/
def frames : Body Call Pmm FramePc ℕ where
  start
    | .alloc => .bound 1
    | .free addr => .freeTest (addr / 4096)
  next := FramePc.next

/-- The two as whole functions. -/
def frameCall : Call → Pmm → ℕ × Pmm
  | .alloc, p => p.pmmAllocAddr
  | .free addr, p => (0, p.pmmFree addr)

variable {p : Pmm}

/-- What `pmm_alloc` makes of the outcome of its scan. -/
def taken (p : Pmm) : Option ℕ → ℕ × Pmm
  | none => (0, p)
  | some i => (i * 4096 % 2 ^ 64, { p.bitmapSet i with usedPages := p.usedPages + 1 })

theorem pmmAllocAddr_eq (p : Pmm) : p.pmmAllocAddr = taken p (p.firstClear 1 (p.totalPages - 1)) := by
  rw [Pmm.pmmAllocAddr, Pmm.pmmAlloc]
  cases p.firstClear 1 (p.totalPages - 1) with
  | none => rfl
  | some i => rfl

/-- The loop of `pmm_alloc` from page `i` on. -/
theorem ends_bound (p : Pmm) (n i : ℕ) (hn : i + n = p.totalPages ∨ (n = 0 ∧ p.totalPages ≤ i)) :
    frames.Ends (.bound i) p (taken p (p.firstClear i n)).1 (taken p (p.firstClear i n)).2 := by
  induction n generalizing i with
  | zero =>
    have hle : ¬i < p.totalPages := by omega
    exact .ret (by simp only [frames, FramePc.next, if_neg hle, Pmm.firstClear, taken])
  | succ n ih =>
    have hlt : i < p.totalPages := by omega
    have hbound : frames.next (.bound i) p = (p, .inl (.test i)) := by
      simp only [frames, FramePc.next, if_pos hlt]
    refine .step hbound ?_
    by_cases ht : p.bitmapTest i = true
    · have hnext : frames.next (.test i) p = (p, .inl (.bound (i + 1))) := by
        simp only [frames, FramePc.next, if_pos ht]
      rw [Pmm.firstClear, if_pos ht]
      exact .step hnext (ih (i + 1) (by omega))
    · have hnext : frames.next (.test i) p = (p, .inl (.setLoad i)) := by
        simp only [frames, FramePc.next, if_neg ht]
      rw [Pmm.firstClear, if_neg ht]
      exact .step hnext (.step rfl (.step rfl (.step rfl (.ret rfl))))

/-- **A call made alone is the whole function.** -/
theorem frames_computes : frames.Computes frameCall := by
  intro c p
  cases c with
  | alloc =>
    rw [frameCall, pmmAllocAddr_eq]
    exact ends_bound p (p.totalPages - 1) 1 (by omega)
  | free addr =>
    by_cases ht : p.bitmapTest (addr / 4096) = true
    · have hnext : frames.next (.freeTest (addr / 4096)) p = (p, .inl (.clearLoad (addr / 4096))) := by
        simp only [frames, FramePc.next, if_pos ht]
      rw [frameCall, Pmm.pmmFree, if_pos ht]
      exact .step hnext (.step rfl (.step rfl (.step rfl (.ret rfl))))
    · rw [frameCall, Pmm.pmmFree, if_neg ht]
      exact .ret (by simp only [frames, FramePc.next, if_neg ht])

/-! ## No frame is handed out twice -/

/-- A completed call. -/
abbrev Done := ℕ × Call × ℕ

variable {s s' : Pmm} {log : List Done}

theorem frameCall_totalPages (c : Call) (s : Pmm) : (frameCall c s).2.totalPages = s.totalPages := by
  cases c with
  | alloc =>
    rw [frameCall, pmmAllocAddr_eq]
    cases s.firstClear 1 (s.totalPages - 1) <;> rfl
  | free addr =>
    simp only [frameCall, Pmm.pmmFree]
    split_ifs <;> rfl

/-- A set bit stays set until `pmm_free` is called for its page. -/
theorem bitmapTest_frameCall {c : Call} {i : ℕ} (hset : s.bitmapTest i = true)
    (hc : ∀ addr, c = .free addr → addr / 4096 ≠ i) : (frameCall c s).2.bitmapTest i = true := by
  cases c with
  | alloc =>
    rw [frameCall, pmmAllocAddr_eq]
    cases s.firstClear 1 (s.totalPages - 1) with
    | none => exact hset
    | some j =>
      show (s.bitmapSet j).bitmapTest i = true
      rw [Pmm.bitmapTest_bitmapSet, hset, Bool.true_or]
  | free addr =>
    simp only [frameCall, Pmm.pmmFree]
    split_ifs with ht
    · show (s.bitmapClear (addr / 4096)).bitmapTest i = true
      rw [Pmm.bitmapTest_bitmapClear, hset, Bool.true_and, Bool.not_eq_true', decide_eq_false_iff_not]
      exact fun h => hc addr rfl h.symm
    · exact hset

/-- The page of a returned address: clear before, set after. -/
theorem page_of_alloc {a : ℕ} (hfit : s.totalPages ≤ 2 ^ 52) (h : frameCall .alloc s = (a, s'))
    (ha : a ≠ 0) : s.bitmapTest (a / 4096) = false ∧ s'.bitmapTest (a / 4096) = true := by
  rw [frameCall, pmmAllocAddr_eq] at h
  cases hscan : s.firstClear 1 (s.totalPages - 1) with
  | none =>
    rw [hscan] at h
    exact absurd (congrArg Prod.fst h).symm ha
  | some i =>
    rw [hscan] at h
    obtain ⟨-, hlt, hclear, -⟩ := Pmm.firstClear_eq_some hscan
    obtain ⟨rfl, rfl⟩ := Prod.mk.inj h
    rw [Nat.mod_eq_of_lt (by omega), Nat.mul_div_cancel i (by decide)]
    exact ⟨hclear, Pmm.bitmapTest_bitmapSet_self s i⟩

theorem totalPages_of_run (h : Run (Body.atomic frameCall) s log s') :
    s'.totalPages = s.totalPages := by
  refine h.invariant (I := fun t => t.totalPages = s.totalPages) (fun e t t' ht he => ?_) rfl
  have hcall := Body.atomic_eq_some.1 he
  rw [← ht, ← frameCall_totalPages e.2.1 t, hcall]

/-- **Between two calls that return the same frame, the frame is freed.** -/
theorem freed_between (hfit : s.totalPages ≤ 2 ^ 52) {l1 l2 l3 : List Done} {x y a : ℕ} (ha : a ≠ 0)
    (h : Run (Body.atomic frameCall) s (l1 ++ (x, .alloc, a) :: (l2 ++ (y, .alloc, a) :: l3)) s') :
    ∃ z b r, (z, Call.free b, r) ∈ l2 ∧ b / 4096 = a / 4096 := by
  obtain ⟨t1, h1, hrest⟩ := h.split l1
  obtain ⟨t2, hfirst, h2⟩ := hrest.uncons
  obtain ⟨t3, h3, hlast⟩ := h2.split l2
  obtain ⟨t4, hsecond, -⟩ := hlast.uncons
  have htotal1 := totalPages_of_run h1
  have hset := (page_of_alloc (htotal1 ▸ hfit) (Body.atomic_eq_some.1 hfirst) ha).2
  have htotal2 := totalPages_of_run (Run.single hfirst)
  have htotal3 := totalPages_of_run h3
  have hclear := (page_of_alloc (by omega) (Body.atomic_eq_some.1 hsecond) ha).1
  by_contra hnone
  have hstill : t3.bitmapTest (a / 4096) = true := by
    refine h3.invariant_of_forall (I := fun t => t.bitmapTest (a / 4096) = true)
      (C := fun e _ => ∀ addr, e.2.1 = .free addr → addr / 4096 ≠ a / 4096)
      (fun e t t' hC ht he => ?_) hset (fun m1 e m2 t heq _ addr hfree hpage => hnone ?_)
    · have hcall := bitmapTest_frameCall ht hC
      rwa [Body.atomic_eq_some.1 he] at hcall
    · obtain ⟨z, c, r⟩ := e
      obtain rfl : c = .free addr := hfree
      exact ⟨z, addr, r, by rw [heq]; simp, hpage⟩
  simp [hclear] at hstill

/-! ## The books of all CPUs -/

/-- Only addresses that a completed `pmm_alloc` has returned are freed. -/
def FreesReturned (log : List Done) : Prop :=
  ∀ l1 z b r l2, log = l1 ++ (z, .free b, r) :: l2 → b ≠ 0 ∧ ∃ x, (x, Call.alloc, b) ∈ l1

/-- What the completed calls have returned. -/
def Returned (log : List Done) (a : ℕ) : Prop := a ≠ 0 ∧ ∃ x, (x, Call.alloc, a) ∈ log

theorem FreesReturned.init {e : Done} (h : FreesReturned (log ++ [e])) : FreesReturned log := by
  intro l1 z b r l2 heq
  exact h l1 z b r (l2 ++ [e]) (by rw [heq]; simp)

/-- **The completed calls are a run of the ledger.** -/
theorem ledger_of_run (h : Run (Body.atomic frameCall) p log s) (hown : FreesReturned log) :
    ∃ t, Run Ledger.step ⟨p, [], []⟩ (log.map fun e => e.2.1) t ∧ t.pmm = s ∧
      ∀ a, a ∈ t.returned ↔ Returned log a := by
  induction h with
  | nil => exact ⟨_, .nil _, rfl, fun a => by simp [Returned]⟩
  | @snoc s s' log e _ he ih =>
    obtain ⟨t, hrun, rfl, hret⟩ := ih hown.init
    obtain ⟨x, c, r⟩ := e
    have hcall := Body.atomic_eq_some.1 he
    simp only [List.map_append, List.map_cons, List.map_nil]
    cases c with
    | alloc =>
      rw [frameCall] at hcall
      by_cases hr : r = 0
      · have hstep : Ledger.step .alloc t = some { t with pmm := s' } := by
          simp only [Ledger.step, hcall, if_pos hr]
        refine ⟨_, hrun.snoc _ hstep, rfl, fun a => (hret a).trans ?_⟩
        simp only [Returned, List.mem_append, List.mem_singleton, Prod.mk.injEq, true_and]
        refine and_congr_right fun ha => exists_congr fun y => ?_
        simp [hr, ha]
      · have hstep : Ledger.step .alloc t =
            some ⟨s', r :: t.returned, r :: t.outstanding⟩ := by
          simp only [Ledger.step, hcall, if_neg hr]
        refine ⟨_, hrun.snoc _ hstep, rfl, fun a => ?_⟩
        rw [List.mem_cons, hret]
        simp only [Returned, List.mem_append, List.mem_singleton, Prod.mk.injEq, true_and]
        constructor
        · rintro (rfl | ⟨ha, y, hy⟩)
          · exact ⟨hr, x, .inr ⟨rfl, rfl⟩⟩
          · exact ⟨ha, y, .inl hy⟩
        · rintro ⟨ha, y, hy | ⟨-, rfl⟩⟩
          · exact .inr ⟨ha, y, hy⟩
          · exact .inl rfl
    | free addr =>
      obtain ⟨hne, y, hy⟩ := hown log x addr r [] rfl
      have hmem : addr ∈ t.returned := (hret addr).2 ⟨hne, y, hy⟩
      have hs : t.pmm.pmmFree addr = s' := congrArg Prod.snd hcall
      have hstep : Ledger.step (.free addr) t =
          some { t with pmm := s', outstanding := t.outstanding.erase addr } := by
        simp only [Ledger.step, if_pos hmem, hs]
      refine ⟨_, hrun.snoc _ hstep, rfl, fun a => (hret a).trans ?_⟩
      simp [Returned]

section Kernel

variable {ι : Type*} [DecidableEq ι] {k0 k : Kernel ι Call Pmm FramePc ℕ} {es : List (Event ι Call)}

/-- **No frame is handed out twice, on any number of CPUs.**  In whatever order the accesses of
concurrent `pmm_alloc` and `pmm_free` calls fall, interrupt handlers included, two completed
`pmm_alloc` calls return the same frame only if that frame was freed between them.  While the lock
is free and only returned addresses have been freed, the allocator is accounted for as after the
calls one after the other: no update of the bitmap or of `used_pages` is lost. -/
theorem pmm_interleaved (hused : p.usedPages = 0) (hfit : p.totalPages ≤ 2 ^ 52) (h0 : k0.Boot p)
    (h : Run (Kernel.step frames) k0 es k) :
    (∀ l1 x a l2 y l3, k.log = l1 ++ (x, .alloc, a) :: (l2 ++ (y, .alloc, a) :: l3) → a ≠ 0 →
      ∃ z b r, (z, Call.free b, r) ∈ l2 ∧ b / 4096 = a / 4096) ∧
      (k.locked = false → FreesReturned k.log →
        ∃ t, Run Ledger.step ⟨p, [], []⟩ (k.log.map fun e => e.2.1) t ∧ t.pmm = k.shared ∧
          (∀ a, a ∈ t.returned ↔ Returned k.log a) ∧ Accounted p t) := by
  have hg := Kernel.guarded_of_run h0 h
  refine ⟨fun l1 x a l2 y l3 heq ha => ?_, fun hfree hown => ?_⟩
  · obtain ⟨s, hreplay, -⟩ := hg.serial
    have hrun := hreplay.run frames_computes
    rw [show k.world.log = k.log from rfl, heq] at hrun
    exact freed_between hfit ha hrun
  · have hrun := (hg.serial.idle hfree).run frames_computes
    obtain ⟨t, ht, hpmm, hret⟩ := ledger_of_run hrun hown
    refine ⟨t, ht, hpmm, hret, ?_⟩
    exact (ht.invariant (Books.step hfit) (Memory.books_start hused)).accounted hfit

/-- CPU 1 comes to the lock while CPU 0 has tested the bit of page 2 and not set it yet. -/
def allocTwice : List (Event Bool Call) :=
  [.pushfq false .alloc, .cli false, .atomicExchange false] ++ List.replicate 4 (.work false) ++
    [.pushfq true .alloc, .cli true, .atomicExchange true] ++ List.replicate 4 (.work false) ++
    [.unlock false, .atomicExchange true, .popfq false] ++ List.replicate 10 (.work true) ++
    [.unlock true, .popfq true]

theorem pmm_interleaved_fourPages :
    ∃ k, Run (Kernel.step frames) (Kernel.twoCpus Memory.fourPages) allocTwice k ∧
      k.log = [(0, .alloc, 8192), (1, .alloc, 12288)] ∧
      ∃ t, t.pmm = k.shared ∧ Accounted Memory.fourPages t := by
  have hexec : (Run.exec (Kernel.step frames) allocTwice (Kernel.twoCpus Memory.fourPages)).map
      (fun k => (k.locked, k.log)) = some (false, [(0, .alloc, 8192), (1, .alloc, 12288)]) := by
    decide +kernel
  obtain ⟨k, hk, heq⟩ := Option.map_eq_some_iff.1 hexec
  obtain ⟨hfree, hlog⟩ := Prod.mk.inj heq
  obtain ⟨-, hbooks⟩ :=
    pmm_interleaved rfl (by decide) (Kernel.boot_twoCpus Memory.fourPages) (Run.of_exec hk)
  refine ⟨k, Run.of_exec hk, hlog, ?_⟩
  obtain ⟨t, -, hpmm, -, hacc⟩ := hbooks hfree (by
    intro l1 z b r l2 heq
    have hmem : (z, Call.free b, r) ∈ k.log := heq ▸ by simp
    simp [hlog] at hmem)
  exact ⟨t, hpmm, hacc⟩

end Kernel

end Hvos.Sync
