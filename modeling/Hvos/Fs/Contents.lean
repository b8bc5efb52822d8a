import Hvos.Fs.Resolve

/-!
# Fs/Contents — `ramfs_write` on the tree

A write gives one file new contents and leaves the rest of the tree alone, whether or not it moves
the file to a larger buffer.
-/

namespace Hvos.Fs

open Prog Memory Function

/-! ## Capacities -/

variable {n offset : ℕ} {target cap p : ℕ}

/-- The doubling loop ends at the target or above. -/
theorem le_of_growCap {c : ℕ} (h : growCap target n cap = some c) : target ≤ c := by
  induction n generalizing cap with
  | zero =>
    rw [growCap] at h
    split_ifs at h with hlt
    exact Option.some.inj h ▸ not_lt.1 hlt
  | succ n ih =>
    rw [growCap] at h
    split_ifs at h with hlt
    · exact ih h
    · exact Option.some.inj h ▸ not_lt.1 hlt

/-- The doubling loop reaches every target up to `2 ^ 63`. -/
theorem growCap_ne_none (htarget : target ≤ 2 ^ 63) (hcap : target ≤ cap * 2 ^ n) :
    growCap target n cap ≠ none := by
  induction n generalizing cap with
  | zero =>
    have hle : target ≤ cap := by simpa using hcap
    simp [growCap, hle]
  | succ n ih =>
    rw [growCap]
    split_ifs with hlt
    · have hwrap : wrap (2 * cap) = 2 * cap := wrap_of_lt (by omega)
      have hnext : target ≤ 2 * cap * 2 ^ n := by
        rwa [Nat.mul_comm 2 cap, Nat.mul_assoc, ← pow_succ']
      rw [hwrap]
      exact ih hnext
    · exact Option.some_ne_none _

/-- The capacity `ramfs_write` starts from reaches every target up to `2 ^ 63`. -/
theorem newCap_ne_none {capacity : ℕ} (htarget : target ≤ 2 ^ 63) (hlt : capacity < target) :
    growCap target 64 (if capacity = 0 then 64 else wrap (2 * capacity)) ≠ none := by
  have hwrap : wrap (2 * capacity) = 2 * capacity := wrap_of_lt (by omega)
  rw [hwrap]
  refine growCap_ne_none htarget ?_
  split_ifs <;> omega

/-- The capacities of files: `0`, and `64` times a power of two. -/
def Capacity (cap : ℕ) : Prop := cap = 0 ∨ ∃ k ≤ 57, cap = 64 * 2 ^ k

theorem Capacity.le (h : Capacity cap) : cap ≤ 2 ^ 63 := by
  rcases h with rfl | ⟨k, hk, rfl⟩
  · exact Nat.zero_le _
  · exact (Nat.mul_le_mul_left 64 (Nat.pow_le_pow_right (by decide) hk)).trans (by decide)

/-- After `2 ^ 63` comes `0`. -/
theorem Capacity.double (h : Capacity cap) : Capacity (wrap (2 * cap)) := by
  rcases h with rfl | ⟨k, hk, rfl⟩
  · exact .inl rfl
  rcases Nat.eq_or_lt_of_le hk with rfl | hlt
  · exact .inl (by decide)
  · have hnext : 2 * (64 * 2 ^ k) = 64 * 2 ^ (k + 1) := by rw [pow_succ]; omega
    have hle := Capacity.le (.inr ⟨k + 1, hlt, hnext⟩)
    rw [wrap_of_lt (by omega)]
    exact .inr ⟨k + 1, hlt, hnext⟩

theorem Capacity.grow {c : ℕ} (h : Capacity cap) (hc : growCap target n cap = some c) :
    Capacity c := by
  induction n generalizing cap with
  | zero =>
    rw [growCap] at hc
    split_ifs at hc with hlt
    exact Option.some.inj hc ▸ h
  | succ n ih =>
    rw [growCap] at hc
    split_ifs at hc with hlt
    · exact ih h.double hc
    · exact Option.some.inj hc ▸ h

/-! ## New contents -/

/-- `n` bytes of `buf` laid over `c` from `offset` on. -/
def overlay (offset n : ℕ) (buf c : ℕ → UInt8) : ℕ → UInt8 := fun k =>
  if offset ≤ k ∧ k < offset + n then buf (k - offset) else c k

theorem overlay_zero (offset : ℕ) (buf c : ℕ → UInt8) : overlay offset 0 buf c = c := by
  funext k
  exact if_neg (by omega)

variable {H : FsState → Prop}

section Write

variable {K : Kmalloc} {N : Nodes} {m : Node} {s s' : FsState} {size : ℕ} {f : FileData}
  {c : ℕ → UInt8}

theorem Nodes.setBody_setBody (N : Nodes) (p : Ptr) (b b' : Body) :
    (N.setBody p b).setBody p b' = N.setBody p b' := by
  rw [Nodes.setBody, Nodes.setBody, List.map_map]
  refine List.map_congr_left fun n _ => ?_
  simp only [comp_apply]
  split_ifs <;> rfl

theorem Holds.file_sound (h : Holds N s) (hm : m ∈ N) (hb : m.body = .file size f c) :
    ¬IsDir m.mode ∧ size ≤ f.capacity ∧ (f.buffer = 0 → f.capacity = 0) := by
  have hsound := h.wf.sound m hm
  rwa [hb] at hsound

/-- The objects of a file. -/
theorem Holds.file_placed (h : Holds N s) (hm : m ∈ N) (hb : m.body = .file size f c) :
    s.heap.get m.inode = some (.inode ⟨m.ino, m.mode, size, true, m.data⟩) ∧
      s.heap.get m.data = some (.file f) ∧
      (f.buffer ≠ 0 → s.heap.get f.buffer = some (.bytes f.capacity c)) := by
  have hpl := h.placed m hm
  have hi := hpl.inode
  have hd := hpl.data
  rw [hb] at hi hd
  exact ⟨hi, hd, hpl.buffer hb⟩

/-- The blocks of a file are apart. -/
theorem Holds.file_apart (h : Holds N s) (hm : m ∈ N) (hb : m.body = .file size f c) :
    m.dentry ≠ m.inode ∧ m.dentry ≠ m.data ∧ m.inode ≠ m.data ∧
      (f.buffer ≠ 0 → m.dentry ≠ f.buffer ∧ m.inode ≠ f.buffer ∧ m.data ≠ f.buffer) := by
  have hnd := (List.nodup_flatMap.1 h.wf.nodup).1 m hm
  by_cases hf : f.buffer = 0
  · simp [Node.ptrs, hb, Body.buffers, hf] at hnd
    tauto
  · simp [Node.ptrs, hb, Body.buffers, hf] at hnd
    tauto

/-- **Size and bytes of a file change in place.** -/
theorem Holds.overwrite (h : Holds N s) (hm : m ∈ N) (hb : m.body = .file size f c) {size' : ℕ}
    {c' : ℕ → UInt8} (hsize : size' ≤ f.capacity) (hroot : s'.rootDentry = s.rootDentry)
    (hinode : s'.heap.get m.inode = some (.inode ⟨m.ino, m.mode, size', true, m.data⟩))
    (hbuffer : f.buffer ≠ 0 → s'.heap.get f.buffer = some (.bytes f.capacity c'))
    (hrest : ∀ p, p ≠ m.inode → p ∉ m.body.buffers → s'.heap.get p = s.heap.get p) :
    Holds (N.setBody m.dentry (.file size' f c')) s' := by
  obtain ⟨hmode, -, hcap⟩ := h.file_sound hm hb
  obtain ⟨-, hdata, -⟩ := h.file_placed hm hb
  obtain ⟨hdi, -, hid, hbuf⟩ := h.file_apart hm hb
  have hptrs : { m with body := .file size' f c' }.ptrs = m.ptrs := by
    simp [Node.ptrs, hb, Body.buffers]
  have hnotbuf : ∀ {p}, (f.buffer ≠ 0 → p ≠ f.buffer) → p ∉ m.body.buffers := by
    intro p hp
    rw [hb, Body.buffers]
    split_ifs with hf
    · simp
    · simpa using hp hf
  refine h.rewrite hm (by simp [hb]) ⟨hmode, hsize, hcap⟩ ?_ ?_ ?_ hroot ⟨?_, hinode, ?_, ?_⟩ ?_ ?_
  · rw [hptrs]
    exact (List.nodup_flatMap.1 h.wf.nodup).1 m hm
  · rw [hptrs]
    exact fun hz => h.wf.ptr_ne_zero hm hz rfl
  · rw [hptrs]
    exact fun p hp => .inl hp
  · rw [hrest _ hdi (hnotbuf fun hf => (hbuf hf).1), (h.placed m hm).dentry]
  · rw [hrest _ hid.symm (hnotbuf fun hf => (hbuf hf).2.2), hdata]
    rfl
  · intro size1 f1 c1 hb1 hf
    cases hb1
    exact hbuffer hf
  · intro p hp _
    refine hrest p (fun heq => hp (heq ▸ m.inode_mem)) fun hpb => hp ?_
    simp [Node.ptrs, hpb]
  · intro p hp hp'
    rw [hptrs] at hp'
    exact absurd hp hp'

/-- **A file moves to a new buffer**, and the old one is freed. -/
theorem Holds.moveBuffer (h : Holds N s) (hm : m ∈ N) (hb : m.body = .file size f c)
    {c' : ℕ → UInt8} (hp : p ≠ 0) (hfree : s.heap.get p = none) (hsize : size ≤ cap)
    (hroot : s'.rootDentry = s.rootDentry) (hdata : s'.heap.get m.data = some (.file ⟨p, cap⟩))
    (hbuffer : s'.heap.get p = some (.bytes cap c'))
    (hgone : f.buffer ≠ 0 → s'.heap.get f.buffer = none)
    (hrest : ∀ r, r ≠ m.data → r ≠ p → r ∉ m.body.buffers → s'.heap.get r = s.heap.get r) :
    Holds (N.setBody m.dentry (.file size ⟨p, cap⟩ c')) s' := by
  obtain ⟨hmode, -, -⟩ := h.file_sound hm hb
  obtain ⟨hinode, -, -⟩ := h.file_placed hm hb
  obtain ⟨hdi, hdd, hid, hbuf⟩ := h.file_apart hm hb
  have hpN : p ∉ N.ptrs := h.not_mem (by rw [hfree]; trivial)
  have hpm : ∀ {r}, r ∈ m.ptrs → r ≠ p := fun hr heq =>
    hpN (Nodes.mem_ptrs.2 ⟨m, hm, heq ▸ hr⟩)
  have hptrs : { m with body := .file size ⟨p, cap⟩ c' }.ptrs = [m.dentry, m.inode, m.data, p] := by
    simp [Node.ptrs, Body.buffers, hp]
  have hnotbuf : ∀ {r}, (f.buffer ≠ 0 → r ≠ f.buffer) → r ∉ m.body.buffers := by
    intro r hr
    rw [hb, Body.buffers]
    split_ifs with hf
    · simp
    · simpa using hr hf
  refine h.rewrite hm (by simp [hb]) ⟨hmode, hsize, fun hz => absurd hz hp⟩ ?_ ?_ ?_ hroot
    ⟨?_, ?_, hdata, ?_⟩ ?_ ?_
  · rw [hptrs]
    simp [hdi, hdd, hid, hpm m.dentry_mem, hpm m.inode_mem, hpm m.data_mem]
  · rw [hptrs]
    simp [(h.wf.ptr_ne_zero hm m.dentry_mem).symm, (h.wf.ptr_ne_zero hm m.inode_mem).symm,
      (h.wf.ptr_ne_zero hm m.data_mem).symm, hp.symm]
  · intro r hr
    rw [hptrs] at hr
    simp only [List.mem_cons, List.not_mem_nil, or_false] at hr
    rcases hr with rfl | rfl | rfl | rfl
    · exact .inl m.dentry_mem
    · exact .inl m.inode_mem
    · exact .inl m.data_mem
    · exact .inr hpN
  · rw [hrest _ hdd (hpm m.dentry_mem) (hnotbuf fun hf => (hbuf hf).1), (h.placed m hm).dentry]
  · rw [hrest _ hid (hpm m.inode_mem) (hnotbuf fun hf => (hbuf hf).2.1), hinode]
    rfl
  · intro size1 f1 c1 hb1 _
    cases hb1
    exact hbuffer
  · intro r hr hr'
    rw [hptrs] at hr'
    simp only [List.mem_cons, List.not_mem_nil, or_false, not_or] at hr'
    refine hrest r hr'.2.2.1 hr'.2.2.2 fun hrb => hr ?_
    simp [Node.ptrs, hrb]
  · intro r hr hr'
    rw [hptrs] at hr'
    simp only [List.mem_cons, List.not_mem_nil, or_false, not_or] at hr'
    simp only [Node.ptrs, List.mem_cons, hb, Body.buffers] at hr
    split_ifs at hr with hf
    · simp [hr'.1, hr'.2.1, hr'.2.2.1] at hr
    · simp only [hr'.1, hr'.2.1, hr'.2.2.1, false_or, List.mem_singleton] at hr
      rw [hr, hgone hf]
      trivial

/-! ## The programs -/

/-- **The old data of a file and the new**: the same, or a new buffer, and then the old one, if
there was one, was freed once.  Nothing else was freed. -/
structure Regrown (f f' : FileData) (s s' : FsState) : Prop where
  capacity : Capacity f.capacity → Capacity f'.capacity
  frees : f' = f ∧ s'.heap.frees = s.heap.frees ∨
    f'.buffer ≠ f.buffer ∧ s'.heap.frees = if f.buffer = 0 then s.heap.frees
      else update s.heap.frees f.buffer (s.heap.frees f.buffer + 1)

/-- The junk on the heap is the same. -/
def JunkKept (s s' : FsState) : Prop :=
  ∀ p o, Junk (some o) → (s'.heap.get p = some o ↔ s.heap.get p = some o)

theorem JunkKept.refl (s : FsState) : JunkKept s s := fun _ _ _ => Iff.rfl

theorem JunkKept.trans {s'' : FsState} (h : JunkKept s s') (h' : JunkKept s' s'') :
    JunkKept s s'' :=
  fun p o ho => (h' p o ho).trans (h p o ho)

theorem JunkKept.leaves (h : JunkKept s s') : Leaves s s' [] := fun p => by
  rw [List.mem_nil_iff, or_false]
  exact exists_congr fun d => and_congr_left fun hd => h p (.dentry d) hd

/-- What is not junk, and put on a block that holds none, leaves junk alone. -/
theorem JunkKept.set (s : FsState) {p : Ptr} {o : Obj} (ho : ¬Junk (some o))
    (hp : ∀ o, s.heap.get p = some o → ¬Junk (some o)) :
    JunkKept s { s with heap := s.heap.set p o } := by
  intro r o' ho'
  rcases eq_or_ne r p with rfl | hne
  · rw [Heap.get_set_self]
    refine ⟨fun heq => ?_, fun heq => absurd ho' (hp o' heq)⟩
    cases heq
    exact absurd ho' ho
  · rw [Heap.get_set_of_ne _ _ hne]

theorem JunkKept.free (s : FsState) {p : Ptr} (hp : ∀ o, s.heap.get p = some o → ¬Junk (some o)) :
    JunkKept s { s with heap := s.heap.free p } := by
  intro r o' ho'
  rcases eq_or_ne r p with rfl | hne
  · rw [Heap.get_free_self]
    exact ⟨(nomatch ·), fun heq => absurd ho' (hp o' heq)⟩
  · rw [Heap.get_free_of_ne _ hne]

theorem ensures_memcpyTo {src : ℕ → UInt8} {Q : Unit → FsState → Prop} (hzero : n = 0 → Q () s)
    (hpos : n ≠ 0 → ∃ len c, s.heap.get p = some (.bytes len c) ∧ offset + n ≤ len ∧
      Q () { s with heap := s.heap.set p (.bytes len (overlay offset n src c)) }) :
    Ensures (memcpyTo K p offset src n) s Q H := by
  refine ensures_modify ?_
  by_cases hn : n = 0
  · simp only [if_pos hn]
    exact hzero hn
  · obtain ⟨len, c, hget, hle, hQ⟩ := hpos hn
    simp only [if_neg hn, hget, if_pos hle]
    exact hQ

/-- Bytes inside a buffer. -/
theorem ensures_bytesAt {len : ℕ} {c : ℕ → UInt8} {Q : (ℕ → UInt8) → FsState → Prop}
    (hp : s.heap.get p = some (.bytes len c)) (h : ∀ c', (∀ k < len, c' k = c k) → Q c' s) :
    Ensures (bytesAt K p) s Q H := by
  refine ensures_read (h _ fun k hk => ?_)
  simp only [hp, if_pos hk]

section Grow

variable {p cap target : ℕ} {c' : ℕ → UInt8} {H : FsState → Prop}

theorem Capacity.newCap (h : Capacity f.capacity)
    (hgrow : growCap target 64 (if f.capacity = 0 then 64 else wrap (2 * f.capacity)) = some cap) :
    Capacity cap := by
  refine .grow ?_ hgrow
  split_ifs
  · exact .inr ⟨0, by decide, rfl⟩
  · exact h.double

/-- The file takes its first buffer. -/
theorem firstBuffer_spec (h : Holds N s) (hm : m ∈ N) (hb : m.body = .file size f c)
    (hf : f.buffer = 0) (hp : p ≠ 0) (hfree : s.heap.get p = none) (hsize : size ≤ cap) :
    Ensures (setFile m.data ⟨p, cap⟩ >>= fun _ => pure (f := Prog FsState) (⟨p, cap⟩ : FileData))
      { s with heap := s.heap.set p (.bytes cap c') }
      (fun f' s' => f' = ⟨p, cap⟩ ∧ Holds (N.setBody m.dentry (.file size f' c')) s' ∧
        JunkKept s s' ∧ s'.heap.frees = s.heap.frees) H := by
  obtain ⟨-, hdata, -⟩ := h.file_placed hm hb
  have hdp : m.data ≠ p := by
    rintro rfl
    simp [hdata] at hfree
  have hdata1 : (s.heap.set p (.bytes cap c')).get m.data = some (.file f) := by
    rw [Heap.get_set_of_ne _ _ hdp, hdata]
  refine ensures_bind (ensures_setFile hdata1 (ensures_pure ⟨rfl, ?_,
    (JunkKept.set s id (by simp [hfree])).trans (.set _ id (by simp [hdata1, Junk])), rfl⟩))
  refine h.moveBuffer hm hb hp hfree hsize rfl (Heap.get_set_self ..) ?_
    (fun hne => absurd hf hne) fun r hr hrp hrb => ?_
  · rw [Heap.get_set_of_ne _ _ hdp.symm, Heap.get_set_self]
  · rw [Heap.get_set_of_ne _ _ hr, Heap.get_set_of_ne _ _ hrp]

/-- The file changes its buffer for another, whatever was copied there. -/
theorem swapBuffer_spec {s2 : FsState} (h : Holds N s) (hm : m ∈ N)
    (hb : m.body = .file size f c) (hf : f.buffer ≠ 0) (hp : p ≠ 0) (hfree : s.heap.get p = none)
    (hsize : size ≤ cap) (hroot : s2.rootDentry = s.rootDentry)
    (hget : s2.heap.get = update s.heap.get p (some (.bytes cap c')))
    (hfrees : s2.heap.frees = s.heap.frees) (hkept : JunkKept s s2) :
    Ensures (kfree f.buffer >>= fun _ => setFile m.data ⟨p, cap⟩ >>= fun _ =>
        pure (f := Prog FsState) (⟨p, cap⟩ : FileData)) s2
      (fun f' s' => f' = ⟨p, cap⟩ ∧ Holds (N.setBody m.dentry (.file size f' c')) s' ∧
        JunkKept s s' ∧
        s'.heap.frees = update s.heap.frees f.buffer (s.heap.frees f.buffer + 1)) H := by
  obtain ⟨-, hdata, hbuffer⟩ := h.file_placed hm hb
  obtain ⟨-, -, -, hbuf⟩ := h.file_apart hm hb
  have hdp : m.data ≠ p := by
    rintro rfl
    simp [hdata] at hfree
  have hbp : f.buffer ≠ p := by
    rintro heq
    simp [← heq, hbuffer hf] at hfree
  have hdata2 : (s2.heap.free f.buffer).get m.data = some (.file f) := by
    rw [Heap.get_free_of_ne _ (hbuf hf).2.2, hget, update_of_ne hdp, hdata]
  have hgone : JunkKept s2 { s2 with heap := s2.heap.free f.buffer } := by
    refine .free s2 ?_
    rw [hget, update_of_ne hbp, hbuffer hf]
    simp [Junk]
  refine ensures_bind (ensures_kfree hf (ensures_bind (ensures_setFile hdata2 (ensures_pure
    ⟨rfl, ?_, (hkept.trans hgone).trans (.set _ id (by simp [hdata2, Junk])), ?_⟩))))
  · refine h.moveBuffer hm hb hp hfree hsize hroot (Heap.get_set_self ..) ?_ ?_
      fun r hr hrp hrb => ?_
    · rw [Heap.get_set_of_ne _ _ hdp.symm, Heap.get_free_of_ne _ hbp.symm, hget, update_self]
    · intro _
      rw [Heap.get_set_of_ne _ _ (hbuf hf).2.2.symm, Heap.get_free_self]
    · have hrf : r ≠ f.buffer := by simpa [hb, Body.buffers, hf] using hrb
      rw [Heap.get_set_of_ne _ _ hr, Heap.get_free_of_ne _ hrf, hget, update_of_ne hrp]
  · rw [← hfrees]
    rfl

/-- **A larger buffer**: the file keeps its bytes. -/
theorem growBuffer_spec (h : Holds N s) (hm : m ∈ N) (hb : m.body = .file size f c)
    (hlt : f.capacity < target) (hrefused : ∀ t, Refused K t → H t)
    (hloop : 2 ^ 63 < target → H s) : Ensures (growBuffer K m.data f size target) s
      (fun f' s' => ∃ c', target ≤ f'.capacity ∧ Regrown f f' s s' ∧
        Holds (N.setBody m.dentry (.file size f' c')) s' ∧ JunkKept s s' ∧
        ∀ k < size, c' k = c k) H := by
  obtain ⟨-, hsize, hcap⟩ := h.file_sound hm hb
  obtain ⟨-, -, hbuffer⟩ := h.file_placed hm hb
  unfold growBuffer
  cases hgrow : growCap target 64 (if f.capacity = 0 then 64 else wrap (2 * f.capacity)) with
  | none =>
    refine ensures_halt (hloop ?_)
    by_contra hle
    exact newCap_ne_none (not_lt.1 hle) hlt hgrow
  | some cap => ?_
  have hreach := le_of_growCap hgrow
  have hmore : size ≤ cap := by omega
  refine ensures_read_bind (ensures_bind ((ensures_kmalloc fun p hp hfree => ?_).mono
    (fun _ _ => id) hrefused))
  by_cases hf : f.buffer = 0
  · -- There was no buffer, so there are no bytes to keep.
    rw [if_neg (not_not.2 hf)]
    refine (firstBuffer_spec h hm hb hf hp hfree hmore).imp ?_
    rintro f' s' ⟨rfl, h', hkept, hfrees⟩
    refine ⟨_, hreach, ⟨fun hc => hc.newCap hgrow, .inr ⟨hp.trans_eq hf.symm, ?_⟩⟩, h', hkept,
      fun k hk => ?_⟩
    · rw [hfrees, if_pos hf]
    · have := hcap hf
      omega
  · rw [if_pos hf]
    have hbp : f.buffer ≠ p := by
      rintro heq
      simp [← heq, hbuffer hf] at hfree
    have hkept1 := JunkKept.set s (p := p) (o := .bytes cap (K.leftover s.heap cap)) id
      (by simp [hfree])
    -- Whatever was copied, the rest of the branch is the same.
    have hfinish : ∀ {s2 : FsState} {c'}, s2.rootDentry = s.rootDentry →
        s2.heap.get = update s.heap.get p (some (.bytes cap c')) →
        s2.heap.frees = s.heap.frees → JunkKept s s2 → (∀ k < size, c' k = c k) →
        Ensures (kfree f.buffer >>= fun _ => setFile m.data ⟨p, cap⟩ >>= fun _ =>
          pure (f := Prog FsState) (⟨p, cap⟩ : FileData)) s2
          (fun f' s' => ∃ c', target ≤ f'.capacity ∧ Regrown f f' s s' ∧
            Holds (N.setBody m.dentry (.file size f' c')) s' ∧ JunkKept s s' ∧
            ∀ k < size, c' k = c k) H := by
      intro s2 c' hroot hget hfrees hkept hsame
      refine (swapBuffer_spec h hm hb hf hp hfree hmore hroot hget hfrees hkept).imp ?_
      rintro f' s' ⟨rfl, h', hkept', hfrees'⟩
      refine ⟨c', hreach, ⟨fun hc => hc.newCap hgrow, .inr ⟨hbp.symm, ?_⟩⟩, h', hkept', hsame⟩
      rw [hfrees', if_neg hf]
    have hbuffer1 : (s.heap.set p (.bytes cap (K.leftover s.heap cap))).get f.buffer =
        some (.bytes f.capacity c) := by
      rw [Heap.get_set_of_ne _ _ hbp, hbuffer hf]
    refine ensures_bind (ensures_bytesAt hbuffer1 fun c0 hc0 => ?_)
    refine ensures_bind (ensures_memcpyTo (fun hz => ?_) fun hnz =>
      ⟨_, _, Heap.get_set_self .., by omega, ?_⟩)
    · exact hfinish rfl rfl rfl hkept1 fun k hk => by omega
    · have hget : ((s.heap.set p (.bytes cap (K.leftover s.heap cap))).set p
          (.bytes cap (overlay 0 size c0 (K.leftover s.heap cap)))).get =
            update s.heap.get p (some (.bytes cap (overlay 0 size c0 (K.leftover s.heap cap)))) := by
        simp only [Heap.get_set, update_idem]
      refine hfinish rfl hget rfl (hkept1.trans (.set _ id (by simp [Junk]))) fun k hk => ?_
      simp [overlay, hk, hc0 k (by omega)]

end Grow

/-- The end of a write that fits. -/
theorem copyIn_spec (h : Holds N s) (hm : m ∈ N) (hb : m.body = .file size f c) (buf : ℕ → UInt8)
    (hle : offset + n ≤ f.capacity) (hlt : offset + n < 2 ^ 64) :
    Ensures (copyIn K m.inode ⟨m.ino, m.mode, size, true, m.data⟩ f buf n offset) s
      (fun r s' => r = (↑n, offset + n) ∧ s'.heap.frees = s.heap.frees ∧ JunkKept s s' ∧
        Holds (N.setBody m.dentry (.file (max size (offset + n)) f (overlay offset n buf c))) s')
      H := by
  obtain ⟨-, hsize, hcap⟩ := h.file_sound hm hb
  obtain ⟨hinode, -, hbuffer⟩ := h.file_placed hm hb
  obtain ⟨-, -, -, hbuf⟩ := h.file_apart hm hb
  have hmax : max size (offset + n) ≤ f.capacity := max_le hsize hle
  -- Once the bytes are in place, the size follows.
  have hfinish : ∀ {s1 : FsState}, s1.rootDentry = s.rootDentry →
      s1.heap.frees = s.heap.frees → JunkKept s s1 →
      (∀ p, p ∉ m.body.buffers → s1.heap.get p = s.heap.get p) →
      (f.buffer ≠ 0 →
        s1.heap.get f.buffer = some (.bytes f.capacity (overlay offset n buf c))) →
      Ensures (if offset + n > size then do
          store m.inode (.inode ⟨m.ino, m.mode, offset + n, true, m.data⟩)
          pure (f := Prog FsState) ((n : ℤ), offset + n)
        else pure (↑n, offset + n)) s1
        (fun r s' => r = (↑n, offset + n) ∧ s'.heap.frees = s.heap.frees ∧ JunkKept s s' ∧
          Holds (N.setBody m.dentry (.file (max size (offset + n)) f (overlay offset n buf c))) s')
        H := by
    intro s1 hroot hfrees hkept hrest hbytes
    have hino : s1.heap.get m.inode = some (.inode ⟨m.ino, m.mode, size, true, m.data⟩) := by
      rw [hrest, hinode]
      rw [hb, Body.buffers]
      split_ifs with hf
      · simp
      · simpa using (hbuf hf).2.1
    by_cases hmore : offset + n > size
    · rw [if_pos hmore]
      refine ensures_modify_bind (ensures_pure
        ⟨rfl, hfrees, hkept.trans (.set _ id (by simp [hino, Junk])), ?_⟩)
      rw [max_eq_right hmore.le] at hmax ⊢
      refine h.overwrite hm hb hmax hroot (Heap.get_set_self ..) (fun hf => ?_)
        fun p hp hpb => ?_
      · rw [Heap.get_set_of_ne _ _ (hbuf hf).2.1.symm, hbytes hf]
      · rw [Heap.get_set_of_ne _ _ hp, hrest p hpb]
    · rw [if_neg hmore]
      refine ensures_pure ⟨rfl, hfrees, hkept, ?_⟩
      rw [max_eq_left (not_lt.1 hmore)] at hmax ⊢
      exact h.overwrite hm hb hmax hroot hino hbytes fun p _ hpb => hrest p hpb
  unfold copyIn
  rw [wrap_of_lt hlt]
  refine ensures_bind (ensures_memcpyTo (fun hz => ?_) fun hnz => ?_)
  · refine hfinish rfl rfl (.refl s) (fun _ _ => rfl) fun hf => ?_
    rw [hz, overlay_zero]
    exact hbuffer hf
  · have hf : f.buffer ≠ 0 := fun hf => by
      have := hcap hf
      omega
    refine ⟨_, _, hbuffer hf, hle, hfinish rfl rfl (.set _ id ?_) (fun p hp => ?_) fun _ => ?_⟩
    · simp [hbuffer hf, Junk]
    · have hpf : p ≠ f.buffer := by simpa [hb, Body.buffers, hf] using hp
      exact Heap.get_set_of_ne _ _ hpf
    · exact Heap.get_set_self ..

/-- **`ramfs_write` through a file**: the file has the bytes written where they were written and its
old ones elsewhere. -/
theorem ramfsWrite_spec (h : Holds N s) (hm : m ∈ N) (hb : m.body = .file size f c) {filp : Ptr}
    {fh : File} (hfilp : s.heap.get filp = some (.handle fh)) (hfh : fh.fDentry = m.dentry)
    (buf : ℕ → UInt8) (hlt : offset + n < 2 ^ 64) (hrefused : ∀ t, Refused K t → H t)
    (hloop : 2 ^ 63 < offset + n → H s) :
    Ensures (ramfsWrite K filp buf n offset) s
      (fun r s' => r = (↑n, offset + n) ∧ ∃ f' c', offset + n ≤ f'.capacity ∧
        Regrown f f' s s' ∧
        Holds (N.setBody m.dentry (.file (max size (offset + n)) f' c')) s' ∧ JunkKept s s' ∧
        (∀ k < n, c' (offset + k) = buf k) ∧
        ∀ k < size, ¬(offset ≤ k ∧ k < offset + n) → c' k = c k) H := by
  obtain ⟨hinode, hdata, -⟩ := h.file_placed hm hb
  have hwritten : ∀ (c1 : ℕ → UInt8) (k : ℕ), k < n → overlay offset n buf c1 (offset + k) = buf k := by
    intro c1 k hk
    simp [overlay, hk]
  unfold ramfsWrite
  refine ensures_bind (ensures_handleAt hfilp ?_)
  rw [hfh]
  refine ensures_bind (ensures_dentryAt (h.placed m hm).dentry
    (ensures_bind (ensures_inodeAt hinode ?_)))
  rw [if_neg (h.wf.ptr_ne_zero hm m.data_mem)]
  refine ensures_bind (ensures_fileAt hdata ?_)
  rw [wrap_of_lt hlt]
  by_cases hgrow : offset + n > f.capacity
  · simp only [if_pos hgrow]
    refine (growBuffer_spec h hm hb hgrow hrefused hloop).bind ?_
    rintro f1 s1 ⟨c1, hcap1, hgrown, h1, hkept1, hsame⟩
    have hm1 : { m with body := .file size f1 c1 } ∈ N.setBody m.dentry (.file size f1 c1) :=
      (Nodes.mem_setBody h.wf hm).2 (.inl rfl)
    refine (copyIn_spec h1 hm1 rfl buf hcap1 hlt).imp ?_
    rintro r s2 ⟨rfl, hfrees, hkept2, h2⟩
    rw [Nodes.setBody_setBody] at h2
    refine ⟨rfl, f1, _, hcap1, ⟨hgrown.capacity, hfrees ▸ hgrown.frees⟩, h2,
      hkept1.trans hkept2, hwritten c1, fun k hk hout => ?_⟩
    rw [overlay, if_neg hout, hsame k hk]
  · simp only [if_neg hgrow]
    refine ensures_bind (ensures_pure ((copyIn_spec h hm hb buf (not_lt.1 hgrow) hlt).imp ?_))
    rintro r s2 ⟨rfl, hfrees, hkept, h2⟩
    refine ⟨rfl, f, _, not_lt.1 hgrow, ⟨id, .inl ⟨rfl, hfrees⟩⟩, h2, hkept, hwritten c,
      fun k _ hout => ?_⟩
    rw [overlay, if_neg hout]

end Write

end Hvos.Fs
