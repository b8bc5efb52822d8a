import Hvos.Memory.HeapSizes

/-!
# Memory/HeapReuse — what `kmalloc` and `kfree` leave alone, and that they undo each other

A live block is left alone, header and bytes, by every `kmalloc` and by `kfree` of another
(`Sound.served_intact`, `Sound.kfree_intact`).  Its size is that of its request, or larger by less
than would be split off.  So freeing it and asking for the same again finds it at the head of the
list, large enough and not worth splitting (`kfree_kmalloc_same`).
-/

namespace Hvos.Memory

open Bytes Blocks Prog

variable {s s' : Mem} {hs fs : List ℕ} {b c d k p size x : ℕ}

/-! ## Bytes outside a header -/

namespace Mem

section

variable (hx : x < b ∨ b + headerSize ≤ x)
include hx

theorem setSize_heapBytes {v : ℕ} : (s.setSize b v).heapBytes x = s.heapBytes x := by
  unfold headerSize at hx
  exact if_neg (by omega)

theorem setIsFree_heapBytes {w : Bool} : (s.setIsFree b w).heapBytes x = s.heapBytes x := by
  unfold headerSize at hx
  exact if_neg (by omega)

theorem setNext_heapBytes {v : ℕ} : (s.setNext b v).heapBytes x = s.heapBytes x := by
  unfold headerSize at hx
  exact if_neg (by omega)

end

theorem setFreeList_heapBytes {v : ℕ} : (s.setFreeList v).heapBytes = s.heapBytes := rfl

theorem cut_heapBytes (hb : x < b ∨ b + headerSize ≤ x)
    (hn : x < b + headerSize + k ∨ b + headerSize + k + headerSize ≤ x) :
    (s.cut b k).heapBytes x = s.heapBytes x := by
  rw [cut, setSize_heapBytes hb, setFreeList_heapBytes, setNext_heapBytes hn, setIsFree_heapBytes hn,
    setSize_heapBytes hn]

theorem header_heapBytes {lim : ℕ} {w : Bool} (hx : x < b ∨ b + headerSize ≤ x) :
    (s.header b lim w).heapBytes x = s.heapBytes x := by
  rw [header, setNext_heapBytes hx, setIsFree_heapBytes hx, setSize_heapBytes hx]

end Mem

/-- Splitting a block writes inside it only. -/
theorem Layout.split_heapBytes (h : Layout s hs fs) (hb : b ∈ hs) (hk : k ≤ s.sizeAt b)
    (hx : x < b ∨ b + headerSize + s.sizeAt b ≤ x) : (s.split b k).heapBytes x = s.heapBytes x := by
  rw [h.split_eq hb hk]
  split_ifs with hfit
  · exact Mem.cut_heapBytes (by omega) (by omega)
  · rfl

/-- A block that was split is larger than asked for by less than a split is worth. -/
theorem Layout.split_sizeAt_lt (h : Layout s hs fs) (hb : b ∈ hs) (hk : k ≤ s.sizeAt b) :
    (s.split b k).sizeAt b < k + headerSize + 16 := by
  rw [h.split_eq hb hk]
  split_ifs with hfit
  · obtain ⟨-, -, -, hsize⟩ := h.cut hb (k := k) (by omega)
    omega
  · omega

/-- Taking a block off the list writes to the header of its predecessor only. -/
theorem Layout.unlink_heapBytes (h : Layout s hs fs) {prev current : ℕ} (hf : Found fs prev current)
    (hx : ∀ f ∈ fs, x < f ∨ f + headerSize ≤ x) :
    (s.unlink prev current).heapBytes x = s.heapBytes x := by
  unfold Mem.unlink
  rcases hf with ⟨zs, rfl, rfl⟩ | ⟨ys, zs, rfl⟩
  · rw [if_neg (by simp), Mem.setFreeList_heapBytes]
  · have hprev : prev ∈ ys ++ prev :: current :: zs := by simp
    rw [if_pos (h.ne_zero (h.sub prev hprev)), Mem.setNext_heapBytes (hx prev hprev)]

/-! ## Blocks left alone -/

/-- Block `d` of `s`, header and bytes, is in `s'` what it was. -/
def Intact (s s' : Mem) (d : ℕ) : Prop :=
  ∀ x, d ≤ x → x < d + headerSize + s.sizeAt d → s'.heapBytes x = s.heapBytes x

/-- The fields of a header are those of its bytes. -/
theorem fields_congr (h : ∀ x, d ≤ x → x < d + headerSize → s'.heapBytes x = s.heapBytes x) :
    s'.sizeAt d = s.sizeAt d ∧ s'.isFreeAt d = s.isFreeAt d := by
  unfold headerSize at h
  refine ⟨load_congr fun x hx hlt => h x hx (by omega), ?_⟩
  rw [Mem.isFreeAt, Mem.isFreeAt, load_congr fun x hx hlt => h x (by omega) (by omega)]

theorem Intact.fields (h : Intact s s' d) :
    s'.sizeAt d = s.sizeAt d ∧ s'.isFreeAt d = s.isFreeAt d :=
  fields_congr fun x hx hlt => h x hx (by omega)

theorem Intact.trans {s'' : Mem} (h : Intact s s' d) (h' : Intact s' s'' d) : Intact s s'' d :=
  fun x hx hlt => (h' x hx (by rwa [h.fields.1])).trans (h x hx hlt)

/-- Blocks on the free list are none of the live ones. -/
theorem Sound.apart_of_live (h : Sound s hs fs) (hd : d ∈ hs) (hlive : s.isFreeAt d = false)
    (hf : c ∈ fs) (hx : d ≤ x) (hlt : x < d + headerSize + s.sizeAt d) :
    x < c ∨ c + headerSize + s.sizeAt c ≤ x := by
  have hne : c ≠ d := by
    rintro rfl
    rw [(h.free_iff c hd).2 hf] at hlive
    cases hlive
  rcases (h.tiles.apart hd (h.sub c hf)).resolve_left hne with hle | hle
  · exact .inl (by omega)
  · exact .inr (by omega)

/-- **`kmalloc` leaves live blocks alone.** -/
theorem Sound.served_intact (h : Sound s hs fs) (hserved : Served s fs k p s')
    (hk : k + 4143 < 2 ^ 64) (hlim : s.heapCurrentLimit ≤ s'.heapCurrentLimit) (hd : d ∈ hs)
    (hlive : s.isFreeAt d = false) : Intact s s' d := by
  intro x hx hlt
  cases hserved with
  | @listed prev current hf hfit =>
    have hcur := h.sub current hf.mem
    have hapart : ∀ f ∈ fs, x < f ∨ f + headerSize + s.sizeAt f ≤ x :=
      fun f hf => h.apart_of_live hd hlive hf hx hlt
    have hout := hapart current hf.mem
    have hsize := (h.toLayout.unlink_fields hf hcur).1
    rw [Mem.setIsFree_heapBytes (by omega),
      (h.toLayout.unlink hf).split_heapBytes hcur (by rwa [hsize]) (by rwa [hsize]),
      h.toLayout.unlink_heapBytes hf fun f hf => (hapart f hf).imp_right (by omega)]
  | @grown s1 hexp _ =>
    have hmono : s.heapCurrentLimit ≤ s1.heapCurrentLimit := by simpa using hlim
    obtain ⟨heq, -, hext, hsize⟩ := h.grown hexp hk hmono
    have hbelow : x < s.heapCurrentLimit := by
      have hend := (h.bounds hd).2
      omega
    rw [heq, hext.split_heapBytes (by simp) hsize (.inl hbelow),
      Mem.header_heapBytes (.inl hbelow), hexp.heapBytes]

/-- **`kfree` leaves the other blocks alone.** -/
theorem Sound.kfree_intact (h : Sound s hs fs) (hb : b ∈ hs) (hd : d ∈ hs) (hne : d ≠ b) :
    Intact s (s.kfree (b + headerSize)) d := by
  intro x hx hlt
  have hout : x < b ∨ b + headerSize ≤ x := by
    rcases (h.tiles.apart hb hd).resolve_left hne with hle | hle
    · exact .inr (by omega)
    · exact .inl (by omega)
  rw [h.kfree_eq hb]
  split_ifs
  · rfl
  · rw [Mem.setFreeList_heapBytes, Mem.setNext_heapBytes hout, Mem.setIsFree_heapBytes hout]

/-- **The block of a request** is larger by less than a split is worth. -/
theorem Sound.served_sizeAt_lt (h : Sound s hs fs) (hserved : Served s fs k p s')
    (hk : k + 4143 < 2 ^ 64) (hlim : s.heapCurrentLimit ≤ s'.heapCurrentLimit) :
    s'.sizeAt (p - headerSize) < k + headerSize + 16 := by
  cases hserved with
  | @listed prev current hf hfit =>
    have hcur := h.sub current hf.mem
    have hsize := (h.toLayout.unlink_fields hf hcur).1
    rw [Nat.add_sub_cancel, Mem.sizeAt_setIsFree (.inl rfl)]
    exact (h.toLayout.unlink hf).split_sizeAt_lt hcur (by rwa [hsize])
  | @grown s1 hexp _ =>
    have hmono : s.heapCurrentLimit ≤ s1.heapCurrentLimit := by simpa using hlim
    obtain ⟨heq, hp, hext, hsize⟩ := h.grown hexp hk hmono
    rw [heq, hp, Nat.add_sub_cancel]
    exact hext.split_sizeAt_lt (by simp) hsize

/-! ## Freeing and asking again -/

/-- **The same heap**: blocks, sizes and flags, the free list in its order, and the limit. -/
structure SameHeap (s s' : Mem) : Prop where
  blocks : ∃ hs, Tiles headerSize s.sizeAt kernelHeapStart s.heapCurrentLimit hs ∧
    ∀ h ∈ hs, s'.sizeAt h = s.sizeAt h ∧ s'.isFreeAt h = s.isFreeAt h
  list : ∃ fs, Linked s.nextAt s.heapFreeList fs ∧ Linked s'.nextAt s'.heapFreeList fs
  limit : s'.heapCurrentLimit = s.heapCurrentLimit

/-- Block `b` is live and serves requests of `k` bytes: it is large enough, and not worth
splitting. -/
structure Serves (s : Mem) (hs fs : List ℕ) (b k : ℕ) : Prop where
  sound : Sound s hs fs
  mem : b ∈ hs
  live : s.isFreeAt b = false
  le : k ≤ s.sizeAt b
  lt : s.sizeAt b < k + headerSize + 16

theorem Serves.not_mem (h : Serves s hs fs b k) : b ∉ fs := fun hf => by
  have hfree := (h.sound.free_iff b h.mem).2 hf
  rw [h.live] at hfree
  cases hfree

/-- The memory after block `b` was freed and taken again: only its `next` is another. -/
def Mem.retaken (s : Mem) (b : ℕ) : Mem :=
  (((s.setIsFree b true).setNext b s.heapFreeList).setFreeList s.heapFreeList).setIsFree b false

theorem Layout.retaken_fields (h : Layout s hs fs) (hb : b ∈ hs) (hc : c ∈ hs) :
    (s.retaken b).sizeAt c = s.sizeAt c ∧
      (s.retaken b).isFreeAt c = (if c = b then false else s.isFreeAt c) ∧
      (s.retaken b).nextAt c = if c = b then s.heapFreeList else s.nextAt c := by
  have hapart := h.apart hb hc
  refine ⟨?_, ?_, ?_⟩
  · rw [Mem.retaken, Mem.sizeAt_setIsFree hapart, Mem.sizeAt_setFreeList, Mem.sizeAt_setNext hapart,
      Mem.sizeAt_setIsFree hapart]
  · rw [Mem.retaken, Mem.isFreeAt_setIsFree hapart, Mem.isFreeAt_setFreeList,
      Mem.isFreeAt_setNext hapart, Mem.isFreeAt_setIsFree hapart]
    split_ifs <;> rfl
  · rw [Mem.retaken, Mem.nextAt_setIsFree hapart, Mem.nextAt_setFreeList,
      Mem.nextAt_setNext hapart h.heapFreeList_lt, Mem.nextAt_setIsFree hapart]

theorem Serves.kfree_eq (h : Serves s hs fs b k) : s.kfree (b + headerSize) =
    ((s.setIsFree b true).setNext b s.heapFreeList).setFreeList b := by
  rw [h.sound.kfree_eq h.mem, if_neg (by simp [h.live])]
  rfl

/-- **Asking again finds the block that was freed.** -/
theorem Serves.kmallocRounded (h : Serves s hs fs b k) :
    kmallocRounded k (s.kfree (b + headerSize)) = .done (b + headerSize) (s.retaken b) := by
  have hself : Apart b b := .inl rfl
  have hend := (h.sound.bounds h.mem).2
  have hbound := h.sound.bound
  have hsize : (s.kfree (b + headerSize)).sizeAt b = s.sizeAt b := h.sound.kfree_sizeAt h.mem h.mem
  have hfind : (s.kfree (b + headerSize)).findBlock k = some (some (0, b)) := by
    have hhead : (s.kfree (b + headerSize)).heapFreeList = b := by
      rw [h.kfree_eq]
      rfl
    rw [Mem.findBlock, hhead, firstFit, if_neg (h.sound.ne_zero h.mem),
      if_pos (by rw [hsize]; exact decide_eq_true h.le)]
  have hunlink : (s.kfree (b + headerSize)).unlink 0 b =
      ((s.setIsFree b true).setNext b s.heapFreeList).setFreeList s.heapFreeList := by
    rw [Mem.unlink, if_neg (by simp), h.kfree_eq, Mem.nextAt_setFreeList,
      Mem.nextAt_setNext hself h.sound.heapFreeList_lt, if_pos rfl]
    rfl
  have hsplit : ((s.kfree (b + headerSize)).unlink 0 b).split b k =
      (s.kfree (b + headerSize)).unlink 0 b := by
    have hsame : ((s.kfree (b + headerSize)).unlink 0 b).sizeAt b = s.sizeAt b := by
      rw [hunlink, Mem.sizeAt_setFreeList, Mem.sizeAt_setNext hself, Mem.sizeAt_setIsFree hself]
    have hlt := h.lt
    have hle := h.le
    have hge := (h.sound.bounds h.mem).1
    unfold headerSize at hlt hend
    unfold kernelHeapStart at hge
    rw [Mem.split, if_neg]
    rw [hsame, wrap_of_lt (by unfold headerSize; omega)]
    unfold headerSize
    omega
  rw [Memory.kmallocRounded, bind_apply, read_apply]
  simp only [hfind]
  change Outcome.done (wrap (b + headerSize))
    ((((s.kfree (b + headerSize)).unlink 0 b).split b k).setIsFree b false) = _
  rw [hsplit, hunlink, wrap_of_lt (by omega)]
  rfl

/-- The block serves the same requests again. -/
theorem Serves.retaken (h : Serves s hs fs b k) : Serves (s.retaken b) hs fs b k := by
  have hfields : ∀ c ∈ hs, _ := fun c hc => h.sound.toLayout.retaken_fields h.mem hc
  have hnext : ∀ f ∈ fs, (s.retaken b).nextAt f = s.nextAt f := fun f hf => by
    have hne : f ≠ b := fun heq => h.not_mem (heq ▸ hf)
    rw [(hfields f (h.sound.sub f hf)).2.2, if_neg hne]
  have hflag : ∀ c ∈ hs, (s.retaken b).isFreeAt c = s.isFreeAt c := fun c hc => by
    rw [(hfields c hc).2.1]
    split_ifs with hcb
    · rw [hcb, h.live]
    · rfl
  have hsize := (hfields b h.mem).1
  refine ⟨⟨⟨h.sound.tiles.congr fun c hc => (hfields c hc).1, h.sound.linked.congr hnext,
    h.sound.nodup, h.sound.sub, h.sound.bound⟩, fun c hc => ?_⟩, h.mem, ?_, ?_, ?_⟩
  · rw [hflag c hc, h.sound.free_iff c hc]
  · rw [hflag b h.mem, h.live]
  · rw [hsize]
    exact h.le
  · rw [hsize]
    exact h.lt

/-- Two sound heaps with the same blocks and the same list. -/
theorem Sound.sameHeap (h : Sound s hs fs) (h' : Sound s' hs fs)
    (hsizes : ∀ c ∈ hs, s'.sizeAt c = s.sizeAt c) (hlim : s'.heapCurrentLimit = s.heapCurrentLimit) :
    SameHeap s s' := by
  refine ⟨⟨hs, h.tiles, fun c hc => ⟨hsizes c hc, ?_⟩⟩, ⟨fs, h.linked, h'.linked⟩, hlim⟩
  rw [Bool.eq_iff_iff, h'.free_iff c hc, h.free_iff c hc]

theorem Serves.sameHeap (h : Serves s hs fs b k) : SameHeap s (s.retaken b) :=
  h.sound.sameHeap h.retaken.sound
    (fun _ hc => (h.sound.toLayout.retaken_fields h.mem hc).1) rfl

theorem Serves.kfree_sound (h : Serves s hs fs b k) :
    Sound (s.kfree (b + headerSize)) hs (b :: fs) := by
  refine ⟨?_, fun c hc => ?_⟩
  · rw [h.kfree_eq]
    exact (h.sound.toLayout.setIsFree (fun c hc => h.sound.apart h.mem hc) true).push h.mem h.not_mem
  · rw [h.sound.kfree_isFreeAt h.mem hc, List.mem_cons]
    by_cases hcb : c = b
    · simp [hcb]
    · rw [if_neg hcb, h.sound.free_iff c hc, or_iff_right hcb]

/-- Free `p` and ask for `n` bytes. -/
def freeAlloc (p n : ℕ) : Prog Mem ℕ := do
  Prog.modify fun s => s.kfree p
  kmalloc n

/-- Ask for `n` bytes and free them, `j` times. -/
def allocFrees (n : ℕ) : ℕ → Prog Mem Unit
  | 0 => pure ()
  | j + 1 => do
    let p ← kmalloc n
    Prog.modify fun s => s.kfree p
    allocFrees n j

variable {st st' : HeapState}

section Rounds

variable {n : ℕ}

theorem Serves.kmalloc (h : Serves s hs fs b (wrap (n + 15) / 16 * 16)) (hn : 0 < n) :
    Memory.kmalloc n (s.kfree (b + headerSize)) = .done (b + headerSize) (s.retaken b) := by
  rw [Memory.kmalloc, if_neg hn.ne', h.kmallocRounded]

/-- Every round leaves the heap as it was after the first. -/
theorem Serves.allocFrees (h : Serves s hs fs b (wrap (n + 15) / 16 * 16)) (hn : 0 < n) (j : ℕ) :
    ∃ s', Memory.allocFrees n j (s.kfree (b + headerSize)) = .done () (s'.kfree (b + headerSize)) ∧
      Serves s' hs fs b (wrap (n + 15) / 16 * 16) ∧ (∀ c ∈ hs, s'.sizeAt c = s.sizeAt c) ∧
      s'.heapCurrentLimit = s.heapCurrentLimit := by
  induction j generalizing s with
  | zero => exact ⟨s, rfl, h, fun _ _ => rfl, rfl⟩
  | succ j ih =>
    obtain ⟨s', hrun, hserves, hsizes, hlim⟩ := ih h.retaken
    refine ⟨s', ?_, hserves, fun c hc => ?_, hlim⟩
    · rw [Memory.allocFrees, bind_apply, h.kmalloc hn]
      exact hrun
    · rw [hsizes c hc, (h.sound.toLayout.retaken_fields h.mem hc).1]

/-! ## Runs -/

/-- **A request leaves a block that serves it again.** -/
theorem Kept.serves (h : Kept st hs fs) (hn : 0 < n) (hsmall : n + 4158 < 2 ^ 64)
    (hrun : Memory.kmalloc n st.mem = .done p s')
    (hlim : st.mem.heapCurrentLimit ≤ s'.heapCurrentLimit) :
    ∃ hs' fs' b, p = b + headerSize ∧ Kept ⟨s', p :: st.returned⟩ hs' fs' ∧
      Serves s' hs' fs' b (wrap (n + 15) / 16 * 16) := by
  have hround : wrap (n + 15) / 16 * 16 + 4143 < 2 ^ 64 := by
    unfold wrap
    omega
  have hrounded : Memory.kmallocRounded (wrap (n + 15) / 16 * 16) st.mem = .done p s' := by
    rwa [Memory.kmalloc, if_neg hn.ne'] at hrun
  obtain ⟨_, _, hall⟩ := (h.sound.kmallocRounded hround).apply hrounded hlim
  obtain ⟨b, -, rfl, -, hle, hlive, -⟩ := hall.block
  have hlt := h.sound.served_sizeAt_lt ((h.sound.served _).apply hrounded) hround hlim
  rw [Nat.add_sub_cancel] at hlt
  obtain ⟨hs', fs', hkept, -⟩ := h.kmalloc hsmall hrun hlim
  obtain ⟨c, hc, hbc⟩ := hkept.returned (b + headerSize) List.mem_cons_self (by simp [headerSize])
  obtain rfl := Nat.add_right_cancel hbc
  exact ⟨hs', fs', b, rfl, hkept, hkept.sound, hc, hlive, hle, hlt⟩

end Rounds

/-- A block that is left alone serves what it served. -/
theorem Serves.of_same {hs' fs' : List ℕ} (h : Serves s hs fs b k) (hsound : Sound s' hs' fs')
    (hb : b ∈ hs') (hsame : s'.sizeAt b = s.sizeAt b ∧ s'.isFreeAt b = s.isFreeAt b) :
    Serves s' hs' fs' b k :=
  ⟨hsound, hb, hsame.2.trans h.live, hsame.1.symm ▸ h.le, hsame.1.symm ▸ h.lt⟩

/-- **One event** that does not free the block leaves it serving. -/
theorem Serves.step {e : HeapEvent} (h : Serves st.mem hs fs b k)
    (hret : ∀ q ∈ st.returned, q ≠ 0 → ∃ c ∈ hs, q = c + headerSize)
    (he : HeapState.step e st = some st') (hne : e ≠ .kfree (b + headerSize)) :
    ∃ hs' fs', Serves st'.mem hs' fs' b k ∧
      ∀ q ∈ st'.returned, q ≠ 0 → ∃ c ∈ hs', q = c + headerSize := by
  have hkept : Kept st hs fs := ⟨h.sound, hret⟩
  obtain ⟨hs', fs', hkept', hold⟩ := hkept.step he
  refine ⟨hs', fs', ?_, hkept'.returned⟩
  have hb := hold b h.mem
  cases e with
  | kmalloc n =>
    obtain ⟨p, hn, hrun, hlim, -⟩ := HeapState.step_kmalloc he
    rcases Nat.eq_zero_or_pos n with rfl | hpos
    · obtain ⟨-, hmem⟩ : 0 = p ∧ st.mem = st'.mem := by simpa [Memory.kmalloc] using hrun
      exact h.of_same hkept'.sound hb (by rw [hmem]; exact ⟨rfl, rfl⟩)
    · have hround : wrap (n + 15) / 16 * 16 + 4143 < 2 ^ 64 := by
        unfold wrap
        omega
      have hintact := h.sound.served_intact ((h.sound.kmalloc_served hpos).apply hrun) hround hlim
        h.mem h.live
      exact h.of_same hkept'.sound hb hintact.fields
  | kfree ptr =>
    simp only [HeapState.step] at he
    split_ifs at he with hptr
    cases he
    by_cases hzero : ptr = 0
    · have hmem : st.mem.kfree ptr = st.mem := by rw [Mem.kfree, if_pos hzero]
      exact h.of_same hkept'.sound hb (by rw [hmem]; exact ⟨rfl, rfl⟩)
    · obtain ⟨c, hc, rfl⟩ := hret ptr (hptr.resolve_left hzero) hzero
      have hbc : b ≠ c := by
        rintro rfl
        exact hne rfl
      have hintact := h.sound.kfree_intact hc h.mem hbc
      exact h.of_same hkept'.sound hb hintact.fields
  | store ptr off v =>
    simp only [HeapState.step] at he
    split_ifs at he with hptr
    cases he
    obtain ⟨hzero, hmem, -, hoff⟩ := hptr
    obtain ⟨c, hc, rfl⟩ := hret ptr hmem hzero
    rw [Nat.add_sub_cancel] at hoff
    refine h.of_same hkept'.sound hb (fields_congr fun x hx hlt => Function.update_of_ne ?_ _ _)
    have hapart := h.sound.tiles.apart hc h.mem
    unfold headerSize at *
    omega

/-- **A run** that does not free the block leaves it serving. -/
theorem Serves.run {es : List HeapEvent} (h : Serves st.mem hs fs b k)
    (hret : ∀ q ∈ st.returned, q ≠ 0 → ∃ c ∈ hs, q = c + headerSize)
    (hrun : Run HeapState.step st es st') (hne : .kfree (b + headerSize) ∉ es) :
    ∃ hs' fs', Serves st'.mem hs' fs' b k := by
  have hinv : ∃ hs' fs', Serves st'.mem hs' fs' b k ∧
      ∀ q ∈ st'.returned, q ≠ 0 → ∃ c ∈ hs', q = c + headerSize := by
    refine hrun.invariant_of_forall (C := fun e _ => e ≠ .kfree (b + headerSize))
      (I := fun t => ∃ hs' fs', Serves t.mem hs' fs' b k ∧
        ∀ q ∈ t.returned, q ≠ 0 → ∃ c ∈ hs', q = c + headerSize) ?_ ⟨hs, fs, h, hret⟩ ?_
    · rintro e t t' he ⟨hs1, fs1, h1, hret1⟩ hstep
      exact h1.step hret1 hstep he
    · rintro es1 e es2 t rfl - rfl
      exact hne (by simp)
  obtain ⟨hs', fs', hserves, -⟩ := hinv
  exact ⟨hs', fs', hserves⟩

/-- **Free and ask again is the identity.**  A pointer `p` that `kmalloc(n)` returned in any run
after `heap_init`, and that has not been freed since: `kfree(p)` and `kmalloc(n)` return it again
and leave the same heap; and once it is freed, any number of such pairs does. -/
theorem kfree_kmalloc_same {boot s0 : Mem} {t t' st : HeapState} {es es' : List HeapEvent} {n p : ℕ}
    (hinit : heapInit boot = .done () s0) (hrun : Run HeapState.step ⟨s0, []⟩ es t)
    (hcall : HeapState.step (.kmalloc n) t = some t') (hp : t'.returned = p :: t.returned)
    (hne : p ≠ 0) (hrun' : Run HeapState.step t' es' st) (hlive : .kfree p ∉ es') :
    (∃ s', freeAlloc p n st.mem = .done p s' ∧ SameHeap st.mem s') ∧
      ∀ j, ∃ s', allocFrees n j (st.mem.kfree p) = .done () s' ∧ SameHeap (st.mem.kfree p) s' := by
  have hstart : Kept ⟨s0, []⟩ [kernelHeapStart] [kernelHeapStart] :=
    ⟨(heapInit_sound boot).apply hinit, fun p hp => by cases hp⟩
  obtain ⟨hs, fs, hkept, -⟩ := hstart.run hrun
  obtain ⟨q, hn, hmalloc, hlim, hret⟩ := HeapState.step_kmalloc hcall
  obtain rfl := (List.cons.inj (hp.symm.trans hret)).1
  have hpos : 0 < n := by
    refine Nat.pos_of_ne_zero ?_
    rintro rfl
    exact hne (by simpa [kmalloc] using hmalloc : 0 = p ∧ _).1.symm
  obtain ⟨hs', fs', b, rfl, hkept', hserves'⟩ := hkept.serves hpos (by omega) hmalloc hlim
  obtain ⟨hs'', fs'', hserves⟩ := hserves'.run (hret ▸ hkept'.returned) hrun' hlive
  refine ⟨⟨st.mem.retaken b, ?_, hserves.sameHeap⟩, fun j => ?_⟩
  · rw [freeAlloc, bind_apply, modify_apply]
    exact hserves.kmalloc hpos
  · obtain ⟨s', hrounds, hs', hsizes, hlim'⟩ := hserves.allocFrees hpos j
    refine ⟨_, hrounds, hserves.kfree_sound.sameHeap hs'.kfree_sound (fun c hc => ?_) ?_⟩
    · rw [hs'.sound.kfree_sizeAt hs'.mem hc, hserves.sound.kfree_sizeAt hserves.mem hc, hsizes c hc]
    · rw [(Mem.kfree_heapOnly ..).heapCurrentLimit, (Mem.kfree_heapOnly ..).heapCurrentLimit, hlim']

/-- A hundred bytes, freed and asked for again. -/
theorem kfree_kmalloc_same_sixFrames : ∃ s0 st, heapInit sixFrames = .done () s0 ∧
      Run HeapState.step ⟨s0, []⟩ [.kmalloc 100] st ∧
      ∃ s', freeAlloc (kernelHeapStart + headerSize) 100 st.mem =
          .done (kernelHeapStart + headerSize) s' ∧ SameHeap st.mem s' := by
  have hcall : (afterInit HeapState.step sixFrames [.kmalloc 100]).map (·.returned) =
      some [kernelHeapStart + headerSize] := by decide +kernel
  obtain ⟨st, hst, hret⟩ := Option.map_eq_some_iff.1 hcall
  obtain ⟨s0, hinit, hrun⟩ := run_of_afterInit hst
  exact ⟨s0, st, hinit, hrun, (kfree_kmalloc_same hinit (.nil _) hrun.step_of_single hret
    (by decide) (.nil st) (by simp)).1⟩

end Hvos.Memory
