import Hvos.Drivers.Video
import Hvos.Sync.SafeLock
import Mathlib.Data.List.Range

/-!
# Sync/Sections — the id counters and the console under their locks

The other sections of the kernel that `safe_lock` guards on their own: `get_next_pid`,
`get_next_tid` and `new_pid`, which load a counter and store it one higher, and `console_write`,
which puts its characters on the terminal one at a time.

* `ids_consecutive` — in every interleaving the ids come out in one row, so no two are equal before
  `2 ^ 64` calls.
* `texts_whole` — the texts of concurrent `console_write` calls come out whole.
-/

namespace Hvos.Sync

open Critical (Body)
open Drivers (Video)

/-! ## Ids -/

/-- The functions that hand out ids, each with its own counter and lock. -/
inductive IdFunction
  | getNextPid
  | getNextTid
  | newPid

/-- Where such a function is, with its local variables. -/
inductive IdPc
  /-- `ret = next_pid`. -/
  | read
  /-- The load and the store of `next_pid += 1`. -/
  | load (ret : UInt64)
  | store (ret v : UInt64)
  /-- The load and the store of `pid = next_pid++`. -/
  | loadPost
  | storePost (v : UInt64)

/-- One access. -/
def IdPc.next : IdPc → UInt64 → UInt64 × (IdPc ⊕ UInt64)
  | .read, n => (n, .inl (.load n))
  | .load ret, n => (n, .inl (.store ret n))
  | .store ret v, _ => (v + 1, .inr ret)
  | .loadPost, n => (n, .inl (.storePost n))
  | .storePost v, _ => (v + 1, .inr v)

/-- The code between the lock and the unlock. -/
def IdFunction.body (f : IdFunction) : Body Unit UInt64 IdPc UInt64 where
  start _ :=
    match f with
    | .getNextPid | .getNextTid => .read
    | .newPid => .loadPost
  next := IdPc.next

/-- All of them return the counter and leave it one higher. -/
theorem ids_computes (f : IdFunction) : f.body.Computes fun _ n => (n, n + 1) := by
  intro c n
  cases f with
  | getNextPid | getNextTid => exact .step rfl (.step rfl (.ret rfl))
  | newPid => exact .step rfl (.ret rfl)

/-- The ids of calls made one after the other. -/
theorem ids_of_run {n n' : UInt64} {log : List (ℕ × Unit × UInt64)}
    (h : Run (Body.atomic fun _ n => (n, n + 1)) n log n') : n' = n + UInt64.ofNat log.length ∧
      log.map (fun e => e.2.2) = (List.range log.length).map fun j => n + UInt64.ofNat j := by
  induction h with
  | nil => simp
  | snoc e _ he ih =>
    have hcall := Body.atomic_eq_some.1 he
    obtain ⟨hret, rfl⟩ := Prod.mk.inj hcall
    obtain ⟨rfl, hlog⟩ := ih
    rw [List.length_append, List.length_singleton, List.range_succ, List.map_append, List.map_append,
      hlog]
    refine ⟨by rw [UInt64.ofNat_add, UInt64.add_assoc]; rfl, ?_⟩
    simp [← hret]

/-! ## The console -/

/-- Where `console_write` is: what is left of the text, and how much has been written. -/
structure WritePc where
  rest : List UInt8
  i : ℕ

/-- `console_write` between the lock and the unlock: one `put_char` for each character. -/
def consoleWrite : Body (List UInt8) Video WritePc ℕ where
  start text := ⟨text, 0⟩
  next
    | ⟨[], i⟩, v => (v, .inr i)
    | ⟨c :: rest, i⟩, v => (v.putChar c, .inl ⟨rest, i + 1⟩)

theorem consoleWrite_ends (text : List UInt8) (i : ℕ) (v : Video) :
    consoleWrite.Ends ⟨text, i⟩ v (i + text.length) (v.putChars text) := by
  induction text generalizing i v with
  | nil => exact .ret rfl
  | cons c rest ih =>
    have hlen : i + (c :: rest).length = i + 1 + rest.length := by
      rw [List.length_cons]
      omega
    rw [hlen]
    exact .step rfl (ih (i + 1) (v.putChar c))

/-- A call made alone writes the text and returns its length. -/
theorem consoleWrite_computes :
    consoleWrite.Computes fun text v => (text.length, v.putChars text) := by
  intro text v
  have hends := consoleWrite_ends text 0 v
  rwa [Nat.zero_add] at hends

/-- The terminal after texts written one after the other. -/
theorem texts_of_run {v v' : Video} {log : List (ℕ × List UInt8 × ℕ)}
    (h : Run (Body.atomic fun text (v : Video) => (text.length, v.putChars text)) v log v') :
    v' = v.putChars (log.map fun e => e.2.1).flatten ∧ ∀ e ∈ log, e.2.2 = e.2.1.length := by
  induction h with
  | nil => exact ⟨rfl, fun e he => by simp at he⟩
  | snoc e _ he ih =>
    have hcall := Body.atomic_eq_some.1 he
    obtain ⟨hret, rfl⟩ := Prod.mk.inj hcall
    obtain ⟨rfl, hlen⟩ := ih
    refine ⟨by simp [Video.putChars], fun d hd => ?_⟩
    rcases List.mem_append.1 hd with hd | hd
    · exact hlen d hd
    · rw [List.mem_singleton.1 hd, hret]

/-! ## Every interleaving -/

section Kernel

variable {ι : Type*} [DecidableEq ι]

/-- **Ids come out in one row**: on any number of CPUs and with interrupt handlers, the completed
calls returned `n, n + 1, …` in the order of their unlocks; no two of fewer than `2 ^ 64` are
equal. -/
theorem ids_consecutive (f : IdFunction) {n : UInt64} {k0 k : Kernel ι Unit UInt64 IdPc UInt64}
    {es : List (Event ι Unit)} (h0 : k0.Boot n) (h : Run (Kernel.step f.body) k0 es k) :
    k.log.map (fun e => e.2.2) = (List.range k.log.length).map (fun j => n + UInt64.ofNat j) ∧
      (k.log.length ≤ 2 ^ 64 → (k.log.map fun e => e.2.2).Nodup) := by
  obtain ⟨s, hreplay, -⟩ := (Kernel.guarded_of_run h0 h).serial
  have hrun : Run (Body.atomic fun _ n => (n, n + 1)) n k.log s := hreplay.run (ids_computes f)
  obtain ⟨-, hlog⟩ := ids_of_run hrun
  refine ⟨hlog, fun hlen => ?_⟩
  rw [hlog]
  refine List.Nodup.map_on (fun i hi j hj heq => ?_) List.nodup_range
  have hij := congrArg UInt64.toNat ((UInt64.add_right_inj n).1 heq)
  rw [List.mem_range] at hi hj
  rwa [UInt64.toNat_ofNat_of_lt' (hi.trans_le hlen), UInt64.toNat_ofNat_of_lt' (hj.trans_le hlen)] at hij

/-- CPU 1 calls `get_next_tid` between the two loads of CPU 0. -/
theorem ids_consecutive_twoCpus :
    ∃ k, Run (Kernel.step IdFunction.getNextTid.body) (Kernel.twoCpus 7)
        [.pushfq false (), .cli false, .atomicExchange false, .work false, .pushfq true (),
          .cli true, .atomicExchange true, .work false, .work false, .unlock false,
          .atomicExchange true, .work true, .work true, .work true, .unlock true] k ∧
      k.log.length = 2 ∧ (k.log.map fun e => e.2.2).Nodup := by
  refine Run.exists_of_exec rfl fun hrun => ⟨rfl, ?_⟩
  exact (ids_consecutive .getNextTid (Kernel.boot_twoCpus 7) hrun).2 (by decide)

/-- **Texts come out whole**: while nobody is writing, the terminal shows the texts of the completed
`console_write` calls one after the other, and each call has returned the length of its text. -/
theorem texts_whole {v : Video} {k0 k : Kernel ι (List UInt8) Video WritePc ℕ}
    {es : List (Event ι (List UInt8))} (h0 : k0.Boot v) (h : Run (Kernel.step consoleWrite) k0 es k)
    (hfree : k.locked = false) :
    k.shared = v.putChars (k.log.map fun e => e.2.1).flatten ∧ ∀ e ∈ k.log, e.2.2 = e.2.1.length :=
  texts_of_run (((Kernel.guarded_of_run h0 h).serial.idle hfree).run consoleWrite_computes)

/-- CPU 1 comes to the lock when CPU 0 has written one of two characters. -/
theorem texts_whole_twoCpus :
    ∃ k, Run (Kernel.step consoleWrite) (Kernel.twoCpus (Video.loaded.initFb 640 480))
        [.pushfq false [0x68, 0x69], .cli false, .atomicExchange false, .work false,
          .pushfq true [0x21], .cli true, .atomicExchange true, .work false, .work false,
          .unlock false, .atomicExchange true, .work true, .work true, .unlock true] k ∧
      k.shared = (Video.loaded.initFb 640 480).putChars [0x68, 0x69, 0x21] := by
  refine Run.exists_of_exec rfl fun hrun => ?_
  exact (texts_whole (Kernel.boot_twoCpus _) hrun rfl).1

end Kernel

end Hvos.Sync
