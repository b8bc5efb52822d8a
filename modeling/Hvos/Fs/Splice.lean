import Hvos.Fs.Shape

/-!
# Fs/Splice — `ramfs_write` splices

A write to a file of any size, from any offset in it: the bytes written are where they were written,
the others are where they were, and the buffer that was outgrown is freed once.
-/

namespace Hvos.Fs

open Prog Memory Function

/-- A file in memory: its size, its two words of data, and its bytes. -/
structure Contents where
  size : ℕ
  data : FileData
  byte : ℕ → UInt8

/-- The body of a file with these contents. -/
def Contents.body (c : Contents) : Body := .file c.size c.data c.byte

/-- **`n` bytes of `buf` spliced in at `offset`.** -/
structure Spliced (old new : Contents) (offset n : ℕ) (buf : ℕ → UInt8) : Prop where
  size : new.size = max old.size (offset + n)
  written : ∀ k < n, new.byte (offset + k) = buf k
  kept : ∀ k < old.size, ¬(offset ≤ k ∧ k < offset + n) → new.byte k = old.byte k
  fits : new.size ≤ new.data.capacity

section Splice

variable {K : Kmalloc} {N : Nodes} {m : Node} {s : FsState}

/-! ## Capacities -/

/-- Every file of the tree has a capacity that the doubling gives. -/
def Capped (N : Nodes) : Prop :=
  ∀ n ∈ N, ∀ {size f c}, n.body = .file size f c → Capacity f.capacity

theorem closed_capped : Closed Capped where
  add {N n} hnew hN := by
    intro m hm size f c hb
    rcases List.mem_append.1 hm with hm | hm
    · exact hN m hm hb
    · obtain rfl := List.mem_singleton.1 hm
      rw [hnew, newBody] at hb
      split_ifs at hb
      cases hb
      exact .inl rfl
  fill {N m _ _ _ _ _ _} hwf hm hb hcap hN := by
    intro n hn size f c hnb
    rcases (Nodes.mem_setBody hwf hm).1 hn with rfl | ⟨hn, -⟩
    · cases hnb
      exact hcap (hN m hm hb)
    · exact hN n hn hnb

theorem Holds.node_of_file (h : Holds N s) {p : Ptr} {f : FileData}
    (hp : s.heap.get p = some (.file f)) : ∃ n ∈ N, ∃ size c, n.body = .file size f c := by
  obtain ⟨n, hn, ⟨-, ho⟩ | ⟨-, ho⟩ | ⟨-, ho⟩ | ⟨_, _, ho⟩⟩ := h.owner_cases hp id
  · cases ho
  · cases ho
  · cases hb : n.body with
    | dir => simp [hb, Body.obj] at ho
    | file size f' c =>
      rw [hb] at ho
      cases ho
      exact ⟨n, hn, size, c, hb⟩
  · cases ho

/-- Every capacity there is, after `ramfs_init` and any calls. -/
theorem capacity_of_run {s0 : FsState} {cs : List Call} (hinit : ramfsInit K .boot = .done () s0)
    (h : Run (callStep K) s0 cs s) {p : Ptr} {f : FileData} (hp : s.heap.get p = some (.file f)) :
    Capacity f.capacity := by
  have hroot : ∀ r : Node, r.body = .dir → Capped [r] := by
    intro r hr n hn size f c hb
    obtain rfl := List.mem_singleton.1 hn
    cases hr.symm.trans hb
  obtain ⟨N, hN, hcapped⟩ := plantedWith_of_run closed_capped hroot hinit h
  obtain ⟨n, hn, size, c, hb⟩ := hN.node_of_file hp
  exact hcapped n hn hb

/-! ## The write -/

/-- **`ramfs_write` splices.**  On a tree, through an open file, with `i_size` within the capacity
and the capacity that of the buffer: it returns `size` with the offset moved on, the file is spliced
and everything else is as it was, and the buffer is freed once if it is replaced.  The one other end
is that `kmalloc` finds no memory.  Capacities keep their form, and have it after any calls. -/
theorem ramfsWrite_splices (K : Kmalloc) :
    (∀ (N : Nodes) (m : Node) (s : FsState) (old : Contents) (filp : Ptr) (fh : File)
      (buf : ℕ → UInt8) (n offset : ℕ), Holds N s → m ∈ N → m.body = old.body →
      s.heap.get filp = some (.handle fh) → fh.fDentry = m.dentry → offset ≤ old.size →
      offset + n ≤ 2 ^ 62 →
        (∃ s' new, ramfsWrite K filp buf n offset s = .done (↑n, offset + n) s' ∧
          Holds (N.setBody m.dentry new.body) s' ∧ Spliced old new offset n buf ∧
          Regrown old.data new.data s s') ∨
        ∃ s', ramfsWrite K filp buf n offset s = .halt s' ∧ Refused K s') ∧
    ∀ (s0 s : FsState) (cs : List Call) (p : Ptr) (f : FileData),
      ramfsInit K .boot = .done () s0 → Run (callStep K) s0 cs s →
      s.heap.get p = some (.file f) → Capacity f.capacity := by
  refine ⟨?_, fun s0 s cs p f hinit hrun hp => capacity_of_run hinit hrun hp⟩
  intro N m s old filp fh buf n offset h hm hb hfilp hfh _ hle
  have hspec := ramfsWrite_spec (K := K) (H := Refused K) h hm hb hfilp hfh buf
    (show offset + n < 2 ^ 64 by omega) (fun _ => id) (by omega)
  rcases hspec.cases with ⟨r, s', hrun, rfl, f', c', hfits, hgrown, h', -, hwritten, hkept⟩ | hhalt
  · have hsound := (h'.file_sound ((Nodes.mem_setBody h.wf hm).2 (.inl rfl)) rfl).2.1
    exact .inl ⟨s', ⟨_, f', c'⟩, hrun, h', ⟨rfl, hwritten, hkept, hsound⟩, hgrown⟩
  · exact .inr hhalt

end Splice

/-- One call of `vfs_create("/f", 0)`. -/
def oneFile : List Call := [.create (some [slash, 102]) 0]

/-- Two bytes to the new file, when it is open. -/
theorem ramfsWrite_splices_oneFile :
    ∃ s s1 s2 filp old new, Run (callStep .endless) emptyFs oneFile s ∧
      vfsOpen .endless (some [slash, 102]) s = .done filp s1 ∧
      ramfsWrite .endless filp (fun _ => 104) 2 0 s1 = .done (2, 2) s2 ∧
      Spliced old new 0 2 fun _ => 104 := by
  have hrun : Run (callStep .endless) emptyFs oneFile _ := .of_exec rfl
  obtain ⟨N, hN⟩ := planted_of_run rfl hrun
  have hopen := (vfsOpen_spec (K := .endless) hN (some [slash, 102])).cases
  rcases hopen with ⟨filp, s1, hopen, ⟨m, hl, hfile, -, hget, -, h⟩ | ⟨-, rfl, -⟩⟩ | ⟨t, hhalt, -⟩
  · cases hb : m.body with
    | dir => exact absurd hb hfile
    | file size f c =>
      have hwrite := (ramfsWrite_splices .endless).1 N m s1 ⟨size, f, c⟩ filp _ (fun _ => 104) 2 0 h
        (Nodes.lookup_mem hl) hb hget rfl (Nat.zero_le _) (by decide)
      rcases hwrite with ⟨s2, new, hwrite, -, hspliced, -⟩ | ⟨s2, -, n, hnone⟩
      · exact ⟨_, s1, s2, filp, _, new, hrun, hopen, hwrite, hspliced⟩
      · cases hnone
  · cases hopen
  · cases hhalt

end Hvos.Fs
