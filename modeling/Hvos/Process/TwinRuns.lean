import Hvos.Process.TwinSpaces

/-!
# Process/TwinRuns — events in two runs at once

The events that make address spaces and add pages to them, and those of the kernel heap, from two
systems with the same processes.  `Twins` is what they keep; one run is the case of two equal
starts.
-/

namespace Hvos.Process

open Memory Prog

variable {s0 b s t : Mem} {lab : ℕ → Option Label} {roots : List ℕ} {a st st' : Sys} {most : ℕ}
  {watched : Set ℕ}

/-- **Two systems that came from `a`, and from `a` with memory `b`**: their processes are the same,
have PML4s of their own and are more than those of `a`, and none can grow beyond `2 ^ 47` with the
frames that are left. -/
structure Twins (s0 : Mem) (a : Sys) (b : Mem) (st st' : Sys) : Prop where
  procs : st'.procs = st.procs
  distinct : (st.procs.map Proc.cr3).Nodup
  both : Both s0 a b st.mem.pmm.freeCount st.spaces st.mem st'.mem
  room : ∀ p ∈ st.procs, p.heapEnd + 4096 * st.mem.pmm.freeCount ≤ 2 ^ 47
  more : a.spaces ⊆ st.spaces

/-! ## Starts -/

/-- Memories that differ in free frames are a start. -/
theorem Owned.paired (h : Owned s0 a.mem lab roots) (hbeside : Beside a.mem t)
    (hequal : ∀ f, ¬a.mem.pmm.Free f → t.phys f = a.mem.phys f)
    (hroots : a.spaces ⊆ {r | r ∈ roots}) :
    Paired s0 a t a.mem.pmm.freeCount roots a.spaces lab a.mem t where
  owned := h
  alike := ⟨hbeside, fun f _ hf _ => hequal f (h.typed.not_free hf)⟩
  equal := hequal
  free _ hf := ⟨hf, rfl, rfl⟩
  few := Nat.le_refl _
  status _ hr := ⟨hroots hr, .inr ⟨hr, fun _ _ => rfl⟩⟩
  halves _ _ _ _ _ := rfl
  kernel _ _ := id

/-- The bound on free frames may be drawn anew. -/
theorem Both.tight (h : Both s0 a b most watched s t) : Both s0 a b s.pmm.freeCount watched s t := by
  obtain ⟨roots, lab, h⟩ := h
  exact ⟨roots, lab, h.owned, h.alike, h.equal, h.free, Nat.le_refl _, h.status, h.halves, h.kernel⟩

theorem Both.few (h : Both s0 a b most watched s t) : s.pmm.freeCount ≤ most := by
  obtain ⟨roots, lab, h⟩ := h
  exact h.few

/-! ## Events -/

/-- Memory goes forward, processes stay. -/
theorem Twins.forward (h : Twins s0 a b st st')
    (hboth : Both s0 a b st.mem.pmm.freeCount st.spaces s t) :
    Twins s0 a b { st with mem := s } { st' with mem := t } := by
  refine ⟨h.procs, h.distinct, hboth.tight, fun p hp => ?_, h.more⟩
  have hroom := h.room p hp
  have hfew := hboth.few
  simp only
  omega

/-- A program on the memory, among processes. -/
theorem twin_onMem {α : Type} {m : Prog Mem α} {Q : α → Sys → Sys → Prop} {H : Sys → Sys → Prop}
    (h : Twin m st.mem st'.mem (fun x s t => Q x { st with mem := s } { st' with mem := t })
      fun s t => H { st with mem := s } { st' with mem := t }) : Twin (onMem m) st st' Q H := by
  unfold Twin Ensures onMem at *
  cases hm : m st.mem with
  | done x s =>
    rw [hm] at h
    obtain ⟨t, ht, hQ⟩ := h
    exact ⟨_, by simp only [ht], hQ⟩
  | halt s =>
    rw [hm] at h
    obtain ⟨t, ht, hH⟩ := h
    exact ⟨_, by simp only [ht], hH⟩

section

variable (h : Twins s0 a b st st')
include h

/-- A program on the memory that goes forward. -/
theorem Twins.onMem {α : Type} {m : Prog Mem α}
    (hm : Twin m st.mem st'.mem (fun _ => Both s0 a b st.mem.pmm.freeCount st.spaces)
      (Both s0 a b st.mem.pmm.freeCount st.spaces)) :
    Twin (onMem m) st st' (fun _ => Twins s0 a b) (Twins s0 a b) :=
  twin_onMem (hm.mono (fun _ _ _ => h.forward) fun _ _ => h.forward)

/-- **A new process.** -/
theorem Twins.createElf {elf : ElfFile} (hlow : elf.Below47) (elfBuffer : ℕ) :
    Twin (step (.createElf elfBuffer elf)) st st' (fun _ => Twins s0 a b) (Twins s0 a b) := by
  obtain ⟨roots, lab, hpaired⟩ := h.both
  refine twin_bind (twin_onMem ((hpaired.createElfProcess hlow elfBuffer).mono
    (fun res s t hres => ?_) fun _ _ => h.forward))
  cases res with
  | none => exact twin_pure (h.forward hres)
  | some proc =>
    obtain ⟨hboth, hnew, hend⟩ := hres
    have hfew := hboth.few
    refine twin_modify ⟨by simp only [h.procs], ?_, ?_, fun p hp => ?_, fun r hr => ?_⟩
    · simp only [List.map_append, List.map_cons, List.map_nil]
      refine h.distinct.append (List.nodup_singleton _) ?_
      intro r hr hr'
      obtain ⟨p, hp, rfl⟩ := List.mem_map.1 hr
      exact hnew ⟨p, hp, List.mem_singleton.1 hr'⟩
    · obtain ⟨roots', lab', hpaired'⟩ := hboth.tight
      refine ⟨roots', lab', hpaired'.mono ?_⟩
      rintro r ⟨p, hp, rfl⟩
      rcases List.mem_append.1 hp with hp | hp
      · exact .inr ⟨p, hp, rfl⟩
      · exact .inl (by rw [List.mem_singleton.1 hp])
    · rcases List.mem_append.1 hp with hp | hp
      · have hroom := h.room p hp
        simp only
        omega
      · obtain ⟨roots', lab', hpaired'⟩ := hboth
        rw [List.mem_singleton.1 hp, hend]
        have hall := Nat.le_trans (Pmm.freeCount_le s.pmm) hpaired'.owned.memory
        simp only [usrHeapBase]
        omega
    · obtain ⟨p, hp, rfl⟩ := h.more hr
      exact ⟨p, List.mem_append_left _ hp, rfl⟩

/-- **More pages for a process.** -/
theorem Twins.allocPages (p : ℕ) (pages : UInt32) :
    Twin (step (.allocPages p pages)) st st' (fun _ => Twins s0 a b) (Twins s0 a b) := by
  refine twin_bind (twin_read (by rw [h.procs]) ?_)
  cases hct : st.procs[p]? with
  | none => exact twin_pure h
  | some ct =>
    have hin := List.mem_of_getElem? hct
    obtain ⟨roots, lab, hpaired⟩ := h.both
    refine twin_bind (twin_onMem ((hpaired.sysAllocPages ⟨ct, hin, rfl⟩ (h.room ct hin) pages).mono
      ?_ fun _ _ => h.forward))
    rintro r s t ⟨hboth, hcr3, hend⟩
    have hsame : (st.procs.set p r.2).map Proc.cr3 = st.procs.map Proc.cr3 := by
      refine List.ext_getElem? fun n => ?_
      rw [List.map_set, List.getElem?_set, List.getElem?_map, hcr3]
      split_ifs with hn hlt
      · rw [← hn, hct, Option.map_some]
      · rw [← hn, List.getElem?_eq_none (by simpa using hlt)]
        rfl
      · rfl
    refine twin_modify ⟨by simp only [h.procs], ?_, ?_, fun q hq => ?_, fun x hx => ?_⟩
    · simp only [hsame]
      exact h.distinct
    · obtain ⟨roots', lab', hpaired'⟩ := hboth.tight
      refine ⟨roots', lab', hpaired'.mono ?_⟩
      rintro x ⟨q, hq, rfl⟩
      have hx : q.cr3 ∈ (st.procs.set p r.2).map Proc.cr3 := List.mem_map_of_mem hq
      rw [hsame] at hx
      exact List.mem_map.1 hx
    · rcases List.mem_or_eq_of_mem_set hq with hq | rfl
      · have hroom := h.room q hq
        have hfew := hboth.few
        simp only
        omega
      · exact hend
    · have hin' := List.mem_map.2 (h.more hx)
      rw [← hsame] at hin'
      exact List.mem_map.1 hin'

/-- **A page fault.** -/
theorem Twins.pageFault (p errorCode cr2 : ℕ) :
    Twin (step (.pageFault p errorCode cr2)) st st' (fun _ => Twins s0 a b) (Twins s0 a b) := by
  refine twin_bind (twin_read (by rw [h.procs]) ?_)
  cases hp : st.procs[p]? with
  | none => exact twin_pure h
  | some current =>
    obtain ⟨roots, lab, hpaired⟩ := h.both
    exact h.onMem (hpaired.pageFaultHandler ⟨current, List.mem_of_getElem? hp, rfl⟩ errorCode cr2)

/-- **The heap grows.** -/
theorem Twins.heapExpand (sizeNeeded : ℕ) :
    Twin (step (.heapExpand sizeNeeded)) st st' (fun _ => Twins s0 a b) (Twins s0 a b) := by
  obtain ⟨roots, lab, hpaired⟩ := h.both
  exact (h.onMem ((hpaired.together.heapExpand sizeNeeded).mono (fun _ _ _ h' => h'.both)
    fun _ _ h' => h'.both)).bind fun _ _ _ h' => twin_pure h'

/-- **`kmalloc`.** -/
theorem Twins.kmalloc (size : ℕ) :
    Twin (step (.kmalloc size)) st st' (fun _ => Twins s0 a b) (Twins s0 a b) := by
  obtain ⟨roots, lab, hpaired⟩ := h.both
  exact (h.onMem ((hpaired.together.kmalloc size).mono (fun _ _ _ h' => h'.both)
    fun _ _ h' => h'.both)).bind fun _ _ _ h' => twin_pure h'

end

end Hvos.Process
