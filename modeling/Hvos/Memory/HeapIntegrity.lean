import Hvos.Lib.Runs
import Hvos.Memory.Heap

/-!
# Memory/HeapIntegrity — the kernel heap keeps its shape through any history

`Layout` says that the headers tile the heap and that the free list is threaded through some of
them; `Sound` adds that the flags tell which.  They are apart because `kmalloc` takes a block off
the list some writes before it clears the flag.  Every operation adds headers and never removes one.
-/

namespace Hvos.Memory

open Bytes Blocks Prog Function

variable {s s' : Mem} {hs hs' fs fs' : List ℕ} {b c k : ℕ}

/-! ## The invariant -/

/-- The headers `hs` tile the heap, and the free list runs through `fs`. -/
structure Layout (s : Mem) (hs fs : List ℕ) : Prop where
  tiles : Tiles headerSize s.sizeAt kernelHeapStart s.heapCurrentLimit hs
  linked : Linked s.nextAt s.heapFreeList fs
  nodup : fs.Nodup
  sub : ∀ f ∈ fs, f ∈ hs
  bound : s.heapCurrentLimit < 2 ^ 64

/-- **Heap soundness**: the blocks on the free list are those flagged free. -/
structure Sound (s : Mem) (hs fs : List ℕ) : Prop extends Layout s hs fs where
  free_iff : ∀ h ∈ hs, s.isFreeAt h = true ↔ h ∈ fs

theorem Layout.apart (h : Layout s hs fs) (hb : b ∈ hs) (hc : c ∈ hs) : Apart b c := by
  unfold Apart
  rcases h.tiles.apart hb hc with heq | hlt | hlt
  · exact .inl heq
  · exact .inr (.inl (by omega))
  · exact .inr (.inr (by omega))

theorem Layout.bounds (h : Layout s hs fs) (hb : b ∈ hs) :
    kernelHeapStart ≤ b ∧ b + headerSize + s.sizeAt b ≤ s.heapCurrentLimit :=
  h.tiles.bounds hb

theorem Layout.ne_zero (h : Layout s hs fs) (hb : b ∈ hs) : b ≠ 0 := by
  have hle := (h.bounds hb).1
  unfold kernelHeapStart at hle
  omega

/-- The free list holds no more blocks than the search of `kmalloc` allows for. -/
theorem Layout.length_lt (h : Layout s hs fs) :
    fs.length < s.heapCurrentLimit / headerSize + 1 := by
  have hle := h.tiles.le
  have hlen : fs.length ≤ hs.length := (h.nodup.subperm h.sub).length_le
  unfold headerSize at hle ⊢
  omega

/-- Soundness looks at the headers, the list head and the limit only. -/
theorem Sound.congr (h : Sound s hs fs) (hlim : s'.heapCurrentLimit = s.heapCurrentLimit)
    (hlist : s'.heapFreeList = s.heapFreeList)
    (hbytes : ∀ c ∈ hs, ∀ x, c ≤ x → x < c + headerSize → s'.heapBytes x = s.heapBytes x) :
    Sound s' hs fs := by
  unfold headerSize at hbytes
  refine ⟨⟨?_, ?_, h.nodup, h.sub, hlim ▸ h.bound⟩, fun c hc => ?_⟩
  · rw [hlim]
    exact h.tiles.congr fun c hc => load_congr fun x hx hlt => hbytes c hc x (by omega) (by omega)
  · rw [hlist]
    exact h.linked.congr fun c hc =>
      load_congr fun x hx hlt => hbytes c (h.sub c hc) x (by omega) (by omega)
  · rw [← h.free_iff c hc, Mem.isFreeAt, Mem.isFreeAt,
      load_congr fun x hx hlt => hbytes c hc x (by omega) (by omega)]

/-! ## Edits -/

/-- A flag is no part of the layout. -/
theorem Layout.setIsFree (h : Layout s hs fs) (hb : ∀ c ∈ hs, Apart b c) (w : Bool) :
    Layout (s.setIsFree b w) hs fs where
  tiles := h.tiles.congr fun c hc => Mem.sizeAt_setIsFree (hb c hc)
  linked := h.linked.congr fun c hc => Mem.nextAt_setIsFree (hb c (h.sub c hc))
  nodup := h.nodup
  sub := h.sub
  bound := h.bound

variable {p prev current size : ℕ}

/-- Another list head. -/
theorem Layout.setFreeList (h : Layout s hs fs) (hl : Linked s.nextAt p fs') (hn : fs'.Nodup)
    (hsub : ∀ f ∈ fs', f ∈ hs) : Layout (s.setFreeList p) hs fs' where
  tiles := h.tiles
  linked := hl
  nodup := hn
  sub := hsub
  bound := h.bound

/-- Where `firstFit` finds a block: at the head of the list, or after its predecessor. -/
def Found (fs : List ℕ) (prev current : ℕ) : Prop :=
  (∃ zs, fs = current :: zs ∧ prev = 0) ∨ ∃ ys zs, fs = ys ++ prev :: current :: zs

theorem Found.mem (h : Found fs prev current) : current ∈ fs := by
  rcases h with ⟨zs, rfl, -⟩ | ⟨ys, zs, rfl⟩ <;> simp

/-- **Taking a block off the list.** -/
theorem Layout.unlink (h : Layout s hs fs) (hf : Found fs prev current) :
    Layout (s.unlink prev current) hs (fs.erase current) := by
  have hnodup := h.nodup
  rcases hf with ⟨zs, rfl, rfl⟩ | ⟨ys, zs, rfl⟩
  · rw [Mem.unlink, if_neg (by simp), List.erase_cons_head]
    obtain ⟨-, -, hlinked⟩ := h.linked
    exact h.setFreeList hlinked (List.nodup_cons.1 hnodup).2
      fun f hf => h.sub f (List.mem_cons_of_mem _ hf)
  · have hprev : prev ∈ hs := h.sub prev (by simp)
    have hcur : current ∈ hs := h.sub current (by simp)
    have hsep := List.nodup_append.1 hnodup
    have hcons := List.nodup_cons.1 hsep.2.1
    have hne : prev ≠ current := fun heq => hcons.1 (by simp [heq])
    have hys : current ∉ ys := fun hmem => hsep.2.2 current hmem current (by simp) rfl
    have herase : (ys ++ prev :: current :: zs).erase current = ys ++ prev :: zs := by
      rw [List.erase_append_right _ hys, List.erase_cons_tail (by simpa using hne),
        List.erase_cons_head]
    have hlt : s.nextAt current < 2 ^ 64 := load_lt
    rw [Mem.unlink, if_pos (h.ne_zero hprev)]
    refine ⟨h.tiles.congr fun c hc => Mem.sizeAt_setNext (h.apart hprev hc), ?_,
      hnodup.erase current, fun f hf => h.sub f (List.mem_of_mem_erase hf), h.bound⟩
    rw [herase]
    refine h.linked.unlink (fun z hz => ?_) ?_
    · have hzs : z ∈ hs := h.sub z (by
        rcases List.mem_append.1 hz with hz | hz
        · simp [hz]
        · simp [hz])
      have hzne : z ≠ prev := by
        rintro rfl
        rcases List.mem_append.1 hz with hz | hz
        · exact hsep.2.2 z hz z (by simp) rfl
        · exact hcons.1 (by simp [hz])
      rw [Mem.nextAt_setNext (h.apart hprev hzs) hlt, if_neg hzne]
    · rw [Mem.nextAt_setNext (.inl rfl) hlt, if_pos rfl]

theorem Layout.unlink_fields (h : Layout s hs fs) (hf : Found fs prev current) (hc : c ∈ hs) :
    (s.unlink prev current).sizeAt c = s.sizeAt c ∧
      (s.unlink prev current).isFreeAt c = s.isFreeAt c := by
  unfold Mem.unlink
  rcases hf with ⟨zs, rfl, rfl⟩ | ⟨ys, zs, rfl⟩
  · rw [if_neg (by simp), Mem.sizeAt_setFreeList, Mem.isFreeAt_setFreeList]
    exact ⟨rfl, rfl⟩
  · have hprev : prev ∈ hs := h.sub prev (by simp)
    rw [if_pos (h.ne_zero hprev)]
    exact ⟨Mem.sizeAt_setNext (h.apart hprev hc), Mem.isFreeAt_setNext (h.apart hprev hc)⟩

/-- Block `b` cut after `k` bytes, the block after the cut pushed on the free list. -/
def Mem.cut (s : Mem) (b k : ℕ) : Mem :=
  ((((s.setSize (b + headerSize + k) (s.sizeAt b - k - headerSize)).setIsFree
    (b + headerSize + k) true).setNext (b + headerSize + k) s.heapFreeList).setFreeList
      (b + headerSize + k)).setSize b k

theorem Mem.cut_heapFreeList : (s.cut b k).heapFreeList = b + headerSize + k := by simp [cut]

theorem Mem.cut_heapCurrentLimit : (s.cut b k).heapCurrentLimit = s.heapCurrentLimit := by
  simp [cut]

section Cut

variable (hb : Apart b c) (hn : Apart (b + headerSize + k) c)

include hb hn

theorem Mem.cut_sizeAt (hk : k < 2 ^ 64) : (s.cut b k).sizeAt c = if c = b then k
      else if c = b + headerSize + k then s.sizeAt b - k - headerSize else s.sizeAt c := by
  have hlt : s.sizeAt b < 2 ^ 64 := load_lt
  rw [cut, sizeAt_setSize hb hk, sizeAt_setFreeList, sizeAt_setNext hn, sizeAt_setIsFree hn,
    sizeAt_setSize hn (by omega)]

theorem Mem.cut_isFreeAt :
    (s.cut b k).isFreeAt c = if c = b + headerSize + k then true else s.isFreeAt c := by
  rw [cut, isFreeAt_setSize hb, isFreeAt_setFreeList, isFreeAt_setNext hn, isFreeAt_setIsFree hn,
    isFreeAt_setSize hn]

theorem Mem.cut_nextAt (hlist : s.heapFreeList < 2 ^ 64) :
    (s.cut b k).nextAt c = if c = b + headerSize + k then s.heapFreeList else s.nextAt c := by
  rw [cut, nextAt_setSize hb, nextAt_setFreeList, nextAt_setNext hn hlist, nextAt_setIsFree hn,
    nextAt_setSize hn]

end Cut

theorem Layout.heapFreeList_lt (h : Layout s hs fs) : s.heapFreeList < 2 ^ 64 := by
  have hlinked := h.linked
  cases fs with
  | nil =>
    rw [show s.heapFreeList = 0 from hlinked]
    decide
  | cons f fs =>
    have hle := (h.bounds (h.sub f List.mem_cons_self)).2
    have hbound := h.bound
    rw [hlinked.1]
    omega

/-- In a layout nothing wraps when a block is split. -/
theorem Layout.split_eq (h : Layout s hs fs) (hb : b ∈ hs) (hk : k ≤ s.sizeAt b) :
    s.split b k = if k + headerSize + 16 ≤ s.sizeAt b then s.cut b k else s := by
  have hle := (h.bounds hb).2
  have hge := (h.bounds hb).1
  have hbound := h.bound
  unfold headerSize at hle
  unfold kernelHeapStart at hge
  have hwrap : wrap (k + headerSize + 16) = k + headerSize + 16 := wrap_of_lt (by
    unfold headerSize
    omega)
  unfold Mem.split
  rw [hwrap]
  by_cases hfit : k + headerSize + 16 ≤ s.sizeAt b
  · have hfit' : k + 24 + 16 ≤ s.sizeAt b := hfit
    have hnb : wrap (b + headerSize + k) = b + headerSize + k := wrap_of_lt (by
      unfold headerSize
      omega)
    have hsub : wsub (wsub (s.sizeAt b) k) headerSize = s.sizeAt b - k - headerSize := by
      unfold headerSize
      rw [wsub_of_le hk (by omega), wsub_of_le (by omega) (by omega)]
    rw [if_pos hfit, if_pos hfit]
    simp only [hnb, hsub]
    rfl
  · rw [if_neg hfit, if_neg hfit]

/-- What splitting leaves: old blocks with their flags, and perhaps a new free one. -/
structure Refined (s s' : Mem) (hs hs' fs fs' : List ℕ) : Prop where
  layout : Layout s' hs' fs'
  old : ∀ c ∈ hs, c ∈ hs'
  flags : ∀ c ∈ hs, s'.isFreeAt c = s.isFreeAt c
  listed : ∀ c ∈ hs, c ∈ fs' ↔ c ∈ fs
  new : ∀ c ∈ hs', c ∉ hs → s'.isFreeAt c = true ∧ c ∈ fs'

/-- A header inside block `b` overlaps none. -/
theorem Layout.inside (h : Layout s hs fs) (hb : b ∈ hs) (hk : k + headerSize ≤ s.sizeAt b)
    (hc : c ∈ hs) : Apart (b + headerSize + k) c ∧ c ≠ b + headerSize + k := by
  have hapart := h.tiles.apart hb hc
  unfold Apart headerSize at *
  omega

section CutBlock

variable (h : Layout s hs fs) (hb : b ∈ hs) (hk : k + headerSize ≤ s.sizeAt b)

include h hb hk

theorem Layout.cut_sizeAt (hc : c ∈ hs) :
    (s.cut b k).sizeAt c = if c = b then k else s.sizeAt c := by
  have hlt : s.sizeAt b < 2 ^ 64 := load_lt
  have hinside := h.inside hb hk hc
  rw [Mem.cut_sizeAt (h.apart hb hc) hinside.1 (by omega), if_neg hinside.2]

theorem Layout.cut_nextAt (hc : c ∈ hs) : (s.cut b k).nextAt c = s.nextAt c := by
  have hinside := h.inside hb hk hc
  rw [Mem.cut_nextAt (h.apart hb hc) hinside.1 h.heapFreeList_lt, if_neg hinside.2]

theorem Layout.cut_isFreeAt (hc : c ∈ hs) : (s.cut b k).isFreeAt c = s.isFreeAt c := by
  have hinside := h.inside hb hk hc
  rw [Mem.cut_isFreeAt (h.apart hb hc) hinside.1, if_neg hinside.2]

end CutBlock

/-- The header behind a cut, and its block. -/
theorem apart_cut (b k : ℕ) :
    Apart (b + headerSize + k) (b + headerSize + k) ∧ Apart b (b + headerSize + k) ∧
      b + headerSize + k ≠ b := by
  unfold Apart headerSize
  omega

/-- The blocks after a cut. -/
theorem Layout.cut_tiles {as cs : List ℕ} (h : Layout s (as ++ b :: cs) fs)
    (hk : k + headerSize ≤ s.sizeAt b) :
    Tiles headerSize (s.cut b k).sizeAt kernelHeapStart (s.cut b k).heapCurrentLimit
      (as ++ b :: (b + headerSize + k) :: cs) := by
  have hb : b ∈ as ++ b :: cs := by simp
  have hlt : s.sizeAt b < 2 ^ 64 := load_lt
  obtain ⟨hself, hnew, hne⟩ := apart_cut b k
  rw [Mem.cut_heapCurrentLimit]
  refine h.tiles.cut (by decide) hk (fun c hc hcb => ?_) ?_ ?_
  · have hmem : c ∈ as ++ b :: cs := by
      rcases List.mem_append.1 hc with hc | hc
      · exact List.mem_append_left _ hc
      · exact List.mem_append_right _ (List.mem_cons_of_mem _ hc)
    rw [h.cut_sizeAt hb hk hmem, if_neg hcb]
  · rw [h.cut_sizeAt hb hk hb, if_pos rfl]
  · rw [Mem.cut_sizeAt hnew hself (by omega), if_neg hne, if_pos rfl]

theorem Layout.cut (h : Layout s hs fs) (hb : b ∈ hs) (hk : k + headerSize ≤ s.sizeAt b) :
    ∃ hs' fs', Refined s (s.cut b k) hs hs' fs fs' ∧ (s.cut b k).sizeAt b = k := by
  have hnotin : b + headerSize + k ∉ hs := fun hmem => (h.inside hb hk hmem).2 rfl
  have hsize := h.cut_sizeAt hb hk hb
  obtain ⟨hself, hnew, -⟩ := apart_cut b k
  obtain ⟨as, cs, rfl⟩ := List.append_of_mem hb
  have hlinked : Linked (s.cut b k).nextAt (s.cut b k).heapFreeList ((b + headerSize + k) :: fs) := by
    rw [Mem.cut_heapFreeList]
    refine h.linked.push ?_ (fun c hc => h.cut_nextAt hb hk (h.sub c hc)) ?_
    · unfold headerSize
      omega
    · rw [Mem.cut_nextAt hnew hself h.heapFreeList_lt, if_pos rfl]
  have hlayout : Layout (s.cut b k) (as ++ b :: (b + headerSize + k) :: cs)
      ((b + headerSize + k) :: fs) := by
    refine ⟨h.cut_tiles hk, hlinked, List.nodup_cons.2 ⟨fun hmem => hnotin (h.sub _ hmem), h.nodup⟩,
      fun f hf => mem_cut.2 ?_, ?_⟩
    · rcases List.mem_cons.1 hf with rfl | hf
      · exact .inr rfl
      · exact .inl (h.sub f hf)
    · rw [Mem.cut_heapCurrentLimit]
      exact h.bound
  refine ⟨_, _, ⟨hlayout, fun c hc => mem_cut.2 (.inl hc), fun c hc => h.cut_isFreeAt hb hk hc,
    fun c hc => ?_, fun c hc hold => ?_⟩, ?_⟩
  · have hne : c ≠ b + headerSize + k := fun heq => hnotin (heq ▸ hc)
    rw [List.mem_cons, or_iff_right hne]
  · obtain rfl := (mem_cut.1 hc).resolve_left hold
    refine ⟨?_, List.mem_cons_self⟩
    rw [Mem.cut_isFreeAt hnew hself, if_pos rfl]
  · rw [hsize, if_pos rfl]

/-- **Splitting a block.** -/
theorem Layout.split (h : Layout s hs fs) (hb : b ∈ hs) (hk : k ≤ s.sizeAt b) :
    ∃ hs' fs', Refined s (s.split b k) hs hs' fs fs' ∧ k ≤ (s.split b k).sizeAt b := by
  rw [h.split_eq hb hk]
  by_cases hfit : k + headerSize + 16 ≤ s.sizeAt b
  · rw [if_pos hfit]
    obtain ⟨hs', fs', href, hsize⟩ := h.cut hb (k := k) (by omega)
    exact ⟨hs', fs', href, Nat.le_of_eq hsize.symm⟩
  · rw [if_neg hfit]
    exact ⟨hs, fs, ⟨h, fun _ => id, fun _ _ => rfl, fun _ _ => .rfl, fun c hc hn => absurd hc hn⟩, hk⟩

/-- The other blocks keep their sizes. -/
theorem Layout.split_sizeAt (h : Layout s hs fs) (hb : b ∈ hs) (hk : k ≤ s.sizeAt b) (hc : c ∈ hs)
    (hne : c ≠ b) : (s.split b k).sizeAt c = s.sizeAt c := by
  rw [h.split_eq hb hk]
  split_ifs with hfit
  · rw [h.cut_sizeAt hb (by omega) hc, if_neg hne]
  · rfl

/-- The header of a block at the end of the heap, which now ends at `lim`. -/
def Mem.header (s : Mem) (b lim : ℕ) (w : Bool) : Mem :=
  ((s.setSize b (lim - b - headerSize)).setIsFree b w).setNext b 0

section Header

variable {lim : ℕ} {w : Bool} (hb : Apart b c)

include hb

theorem Mem.header_sizeAt (hlim : lim < 2 ^ 64) :
    (s.header b lim w).sizeAt c = if c = b then lim - b - headerSize else s.sizeAt c := by
  rw [header, sizeAt_setNext hb, sizeAt_setIsFree hb, sizeAt_setSize hb (by omega)]

theorem Mem.header_isFreeAt :
    (s.header b lim w).isFreeAt c = if c = b then w else s.isFreeAt c := by
  rw [header, isFreeAt_setNext hb, isFreeAt_setIsFree hb, isFreeAt_setSize hb]

theorem Mem.header_nextAt : (s.header b lim w).nextAt c = if c = b then 0 else s.nextAt c := by
  rw [header, nextAt_setNext hb (by decide), nextAt_setIsFree hb, nextAt_setSize hb]

end Header

/-- Flags that told the free blocks still do. -/
theorem Refined.sound (h : Refined s s' hs hs' fs fs')
    (hflags : ∀ c ∈ hs, s.isFreeAt c = true ↔ c ∈ fs) : Sound s' hs' fs' := by
  refine ⟨h.layout, fun c hc => ?_⟩
  by_cases hold : c ∈ hs
  · rw [h.flags c hold, hflags c hold, h.listed c hold]
  · simp [h.new c hc hold]

/-- So do they once the flag of a block that was taken off the list is cleared. -/
theorem Refined.sound_clear (h : Refined s s' hs hs' fs fs') (hb : b ∈ hs) (hbf : b ∉ fs)
    (hflags : ∀ c ∈ hs, c ≠ b → (s.isFreeAt c = true ↔ c ∈ fs)) :
    Sound (s'.setIsFree b false) hs' fs' := by
  have hapart : ∀ c ∈ hs', Apart b c := fun c hc => h.layout.apart (h.old b hb) hc
  refine ⟨h.layout.setIsFree hapart false, fun c hc => ?_⟩
  rw [Mem.isFreeAt_setIsFree (hapart c hc)]
  by_cases hcb : c = b
  · subst hcb
    simpa using fun hmem => hbf ((h.listed c hb).1 hmem)
  · rw [if_neg hcb]
    by_cases hold : c ∈ hs
    · rw [h.flags c hold, hflags c hold hcb, h.listed c hold]
    · simp [h.new c hc hold]

/-- **A new block at the end.** -/
theorem Layout.extend (h : Layout s hs fs) (hbytes : s'.heapBytes = s.heapBytes)
    (hlist : s'.heapFreeList = s.heapFreeList)
    (hlim : s.heapCurrentLimit + headerSize ≤ s'.heapCurrentLimit)
    (hbound : s'.heapCurrentLimit < 2 ^ 64) (w : Bool) :
    Layout (s'.header s.heapCurrentLimit s'.heapCurrentLimit w) (hs ++ [s.heapCurrentLimit]) fs := by
  have hold : ∀ c ∈ hs, Apart s.heapCurrentLimit c ∧ c ≠ s.heapCurrentLimit := by
    intro c hc
    have hle := (h.bounds hc).2
    unfold Apart headerSize at *
    omega
  have hsize : s'.sizeAt = s.sizeAt := by
    funext c
    rw [Mem.sizeAt, hbytes, Mem.sizeAt]
  have hnext : s'.nextAt = s.nextAt := by
    funext c
    rw [Mem.nextAt, hbytes, Mem.nextAt]
  refine ⟨?_, ?_, h.nodup, fun f hf => List.mem_append_left _ (h.sub f hf), ?_⟩
  · have hend : (s'.header s.heapCurrentLimit s'.heapCurrentLimit w).heapCurrentLimit =
        s'.heapCurrentLimit := by simp [Mem.header]
    rw [hend]
    refine h.tiles.extend (fun c hc => ?_) ?_
    · rw [Mem.header_sizeAt (hold c hc).1 hbound, if_neg (hold c hc).2, hsize]
    · rw [Mem.header_sizeAt (.inl rfl) hbound, if_pos rfl]
      omega
  · have hhead : (s'.header s.heapCurrentLimit s'.heapCurrentLimit w).heapFreeList =
        s.heapFreeList := by simp [Mem.header, hlist]
    rw [hhead]
    refine h.linked.congr fun c hc => ?_
    rw [Mem.header_nextAt (hold c (h.sub c hc)).1, if_neg (hold c (h.sub c hc)).2, hnext]
  · simpa [Mem.header] using hbound

/-- **A block put on the list.** -/
theorem Layout.push (h : Layout s hs fs) (hb : b ∈ hs) (hbf : b ∉ fs) :
    Layout ((s.setNext b s.heapFreeList).setFreeList b) hs (b :: fs) := by
  have hlist := h.heapFreeList_lt
  have hnext : Layout (s.setNext b s.heapFreeList) hs fs := by
    refine ⟨h.tiles.congr fun c hc => Mem.sizeAt_setNext (h.apart hb hc), ?_, h.nodup, h.sub, h.bound⟩
    refine h.linked.congr fun c hc => ?_
    rw [Mem.nextAt_setNext (h.apart hb (h.sub c hc)) hlist, if_neg (by rintro rfl; exact hbf hc)]
  refine hnext.setFreeList ?_ (List.nodup_cons.2 ⟨hbf, h.nodup⟩) ?_
  · refine hnext.linked.push (h.ne_zero hb) (fun _ _ => rfl) ?_
    rw [Mem.nextAt_setNext (.inl rfl) hlist, if_pos rfl, Mem.heapFreeList_setNext]
  · intro f hf
    rcases List.mem_cons.1 hf with rfl | hf
    · exact hb
    · exact h.sub f hf

/-! ## `kfree` -/

/-- `kfree` finds the header in front of the pointer. -/
theorem Layout.kfree_eq (h : Layout s hs fs) (hb : b ∈ hs) :
    s.kfree (b + headerSize) = if s.isFreeAt b then s
      else ((s.setIsFree b true).setNext b (s.setIsFree b true).heapFreeList).setFreeList b := by
  have hle := (h.bounds hb).2
  have hbound := h.bound
  have hhdr : wsub (b + headerSize) headerSize = b := by
    rw [wsub_of_le (Nat.le_add_left ..) (by omega), Nat.add_sub_cancel]
  rw [Mem.kfree, if_neg (by simp [headerSize])]
  simp only [hhdr]
  rfl

/-- Freeing changes one flag. -/
theorem Layout.kfree_isFreeAt (h : Layout s hs fs) (hb : b ∈ hs) (hc : c ∈ hs) :
    (s.kfree (b + headerSize)).isFreeAt c = if c = b then true else s.isFreeAt c := by
  rw [h.kfree_eq hb]
  by_cases hfree : s.isFreeAt b = true
  · rw [if_pos hfree]
    split_ifs with hcb
    · rw [hcb, hfree]
    · rfl
  · rw [if_neg hfree, Mem.isFreeAt_setFreeList, Mem.isFreeAt_setNext (h.apart hb hc),
      Mem.isFreeAt_setIsFree (h.apart hb hc)]

/-- …and no size. -/
theorem Layout.kfree_sizeAt (h : Layout s hs fs) (hb : b ∈ hs) (hc : c ∈ hs) :
    (s.kfree (b + headerSize)).sizeAt c = s.sizeAt c := by
  rw [h.kfree_eq hb]
  split_ifs
  · rfl
  · rw [Mem.sizeAt_setFreeList, Mem.sizeAt_setNext (h.apart hb hc),
      Mem.sizeAt_setIsFree (h.apart hb hc)]

/-- **`kfree`** of a block puts it on the free list, unless it is there. -/
theorem Sound.kfree (h : Sound s hs fs) (hb : b ∈ hs) :
    ∃ fs', Sound (s.kfree (b + headerSize)) hs fs' := by
  have hflag : ∀ c ∈ hs, (s.kfree (b + headerSize)).isFreeAt c = if c = b then true else s.isFreeAt c :=
    fun c hc => h.toLayout.kfree_isFreeAt hb hc
  by_cases hfree : s.isFreeAt b = true
  · rw [h.kfree_eq hb, if_pos hfree]
    exact ⟨fs, h⟩
  · have hbf : b ∉ fs := fun hmem => hfree ((h.free_iff b hb).2 hmem)
    have hlayout := (h.toLayout.setIsFree (fun c hc => h.apart hb hc) true).push hb hbf
    refine ⟨b :: fs, ?_, fun c hc => ?_⟩
    · rw [h.kfree_eq hb, if_neg hfree]
      exact hlayout
    · rw [hflag c hc]
      by_cases hcb : c = b
      · simp [hcb]
      · rw [if_neg hcb, h.free_iff c hc, List.mem_cons, or_iff_right hcb]

/-! ## `kmalloc` -/

/-- **What an allocation of `size` bytes does**: its block was free or is new, holds them, and is
the only one whose flag changed. -/
structure Allocated (s s' : Mem) (hs hs' fs fs' : List ℕ) (size p : ℕ) : Prop where
  sound : Sound s' hs' fs'
  old : ∀ c ∈ hs, c ∈ hs'
  block : ∃ h ∈ hs', p = h + headerSize ∧ (h ∈ fs ∨ h ∉ hs) ∧ size ≤ s'.sizeAt h ∧
    s'.isFreeAt h = false ∧ ∀ c ∈ hs, c ≠ h → s'.isFreeAt c = s.isFreeAt c

/-- A block of the free list is taken; what is split off is free, and the others keep their
sizes. -/
theorem Sound.take_new (h : Sound s hs fs) (hf : Found fs prev current)
    (hk : k ≤ s.sizeAt current) :
    ∃ hs' fs', Allocated s (((s.unlink prev current).split current k).setIsFree current false)
        hs hs' fs fs' k (current + headerSize) ∧
      (∀ c ∈ hs', c ∉ hs →
        (((s.unlink prev current).split current k).setIsFree current false).isFreeAt c = true) ∧
      ∀ c ∈ hs, c ≠ current →
        (((s.unlink prev current).split current k).setIsFree current false).sizeAt c = s.sizeAt c := by
  have hcur : current ∈ hs := h.sub current hf.mem
  have hunlink := h.toLayout.unlink hf
  have hfields : ∀ c ∈ hs, (s.unlink prev current).sizeAt c = s.sizeAt c ∧
      (s.unlink prev current).isFreeAt c = s.isFreeAt c := fun c hc => h.unlink_fields hf hc
  have herase : ∀ c, c ∈ fs.erase current ↔ c ≠ current ∧ c ∈ fs := fun c => h.nodup.mem_erase_iff
  have hfit : k ≤ (s.unlink prev current).sizeAt current := by rwa [(hfields current hcur).1]
  obtain ⟨hs', fs', href, hsize⟩ := hunlink.split hcur hfit
  have hsound := href.sound_clear hcur (fun hmem => ((herase current).1 hmem).1 rfl) fun c hc hne => by
    rw [(hfields c hc).2, h.free_iff c hc, herase]
    exact ⟨fun hmem => ⟨hne, hmem⟩, fun hmem => hmem.2⟩
  have hmem := href.old current hcur
  refine ⟨hs', fs', ⟨hsound, href.old, current, hmem, rfl, .inl hf.mem, ?_, ?_, fun c hc hne => ?_⟩,
    fun c hc hnew => ?_, fun c hc hne => ?_⟩
  · rwa [Mem.sizeAt_setIsFree (.inl rfl)]
  · rw [Mem.isFreeAt_setIsFree (.inl rfl), if_pos rfl]
  · rw [Mem.isFreeAt_setIsFree (href.layout.apart hmem (href.old c hc)), if_neg hne, href.flags c hc,
      (hfields c hc).2]
  · have hne : c ≠ current := fun heq => hnew (heq ▸ hcur)
    rw [Mem.isFreeAt_setIsFree (href.layout.apart hmem hc), if_neg hne]
    exact (href.new c hc hnew).1
  · rw [Mem.sizeAt_setIsFree (href.layout.apart hmem (href.old c hc)),
      hunlink.split_sizeAt hcur hfit hc hne, (hfields c hc).1]

/-- The heap is made larger. -/
theorem Sound.grow (h : Sound s hs fs) (hbytes : s'.heapBytes = s.heapBytes)
    (hlist : s'.heapFreeList = s.heapFreeList)
    (hlim : s.heapCurrentLimit + headerSize + k ≤ s'.heapCurrentLimit)
    (hbound : s'.heapCurrentLimit < 2 ^ 64) : ∃ hs' fs', Allocated s
      ((s'.header s.heapCurrentLimit s'.heapCurrentLimit false).split s.heapCurrentLimit k)
      hs hs' fs fs' k (s.heapCurrentLimit + headerSize) := by
  have hext := h.toLayout.extend hbytes hlist (by omega) hbound false
  have hold : ∀ c ∈ hs, Apart s.heapCurrentLimit c ∧ c ≠ s.heapCurrentLimit := by
    intro c hc
    have hle := (h.bounds hc).2
    unfold Apart headerSize at *
    omega
  have hfree : ∀ c ∈ hs, (s'.header s.heapCurrentLimit s'.heapCurrentLimit false).isFreeAt c =
      s.isFreeAt c := fun c hc => by
    rw [Mem.header_isFreeAt (hold c hc).1, if_neg (hold c hc).2, Mem.isFreeAt, hbytes, Mem.isFreeAt]
  have hclear : (s'.header s.heapCurrentLimit s'.heapCurrentLimit false).isFreeAt
      s.heapCurrentLimit = false := by
    rw [Mem.header_isFreeAt (.inl rfl), if_pos rfl]
  have hnew : s.heapCurrentLimit ∈ hs ++ [s.heapCurrentLimit] := by simp
  have hnot : s.heapCurrentLimit ∉ hs := fun hmem => (hold _ hmem).2 rfl
  obtain ⟨hs', fs', href, hsize⟩ := hext.split hnew (k := k) (by
    rw [Mem.header_sizeAt (.inl rfl) hbound, if_pos rfl]
    omega)
  have hsound := href.sound fun c hc => by
    rcases List.mem_append.1 hc with hc | hc
    · rw [hfree c hc, h.free_iff c hc]
    · obtain rfl := List.mem_singleton.1 hc
      simpa [hclear] using fun hmem => hnot (h.sub _ hmem)
  refine ⟨hs', fs', hsound, fun c hc => href.old c (List.mem_append_left _ hc),
    s.heapCurrentLimit, href.old _ hnew, rfl, .inr hnot, hsize, ?_, fun c hc _ => ?_⟩
  · rw [href.flags _ hnew, hclear]
  · rw [href.flags c (List.mem_append_left _ hc), hfree c hc]

theorem Allocated.mono (h : Allocated s s' hs hs' fs fs' k p) (hle : size ≤ k) :
    Allocated s s' hs hs' fs fs' size p := by
  obtain ⟨b, hb, hp, hfree, hsize, hflags⟩ := h.block
  exact ⟨h.sound, h.old, b, hb, hp, hfree, Nat.le_trans hle hsize, hflags⟩

/-- **How `kmalloc` serves a request of `k` bytes**: from a block of the free list, or from a heap
made larger. -/
inductive Served (s : Mem) (fs : List ℕ) (k : ℕ) : ℕ → Mem → Prop
  | listed {prev current : ℕ} (hf : Found fs prev current) (hk : k ≤ s.sizeAt current)
      (hfind : s.findBlock k = some (some (prev, current))) :
      Served s fs k (current + headerSize)
        (((s.unlink prev current).split current k).setIsFree current false)
  | grown {s1 : Mem} (hexp : Expanded s s1 (expandPages (wrap (k + headerSize))))
      (hmoved : s1.heapCurrentLimit ≠ s.heapCurrentLimit) (hfind : s.findBlock k = some none) :
      Served s fs k (wrap (s.heapCurrentLimit + headerSize))
        ((((s1.setSize s.heapCurrentLimit
          (wsub (wsub s1.heapCurrentLimit s.heapCurrentLimit) headerSize)).setIsFree
            s.heapCurrentLimit false).setNext s.heapCurrentLimit 0).split s.heapCurrentLimit k)

/-- A request is served, unless a frame is lacking or the number of pages comes to 0. -/
theorem Sound.served (h : Sound s hs fs) (k : ℕ) : Ensures (kmallocRounded k) s (Served s fs k)
      (fun s' => s'.pmm.pmmAlloc = none ∨ expandPages (wrap (k + headerSize)) = 0) := by
  have hbound := h.bound
  refine ensures_read_bind ?_
  rcases firstFit_spec (fun b => decide (k ≤ s.sizeAt b)) 0 h.linked h.length_lt with
    hend | ⟨prev, current, hfound, hfit, hpos⟩
  · rw [show s.findBlock k = some none from hend]
    refine ensures_read_bind (ensures_bind ?_)
    refine (heapExpand_spec _ hbound).mono ?_ fun _ => .inl
    rintro r s1 ⟨n, -, hexp, ⟨rfl, hnone⟩ | ⟨rfl, rfl⟩⟩
    · refine ensures_read_bind ?_
      rw [if_pos (.inl (by decide))]
      exact ensures_halt (.inl hnone)
    · refine ensures_read_bind ?_
      by_cases hmoved : s1.heapCurrentLimit = s.heapCurrentLimit
      · rw [if_pos (.inr hmoved)]
        exact ensures_halt (.inr (hexp.pages_eq_zero hmoved))
      · rw [if_neg (not_or.2 ⟨by decide, hmoved⟩)]
        exact ensures_modify_bind (ensures_pure (.grown hexp hmoved hend))
  · rw [show s.findBlock k = some (some (prev, current)) from hfound]
    have hle := (h.bounds (h.sub current (Found.mem hpos))).2
    refine ensures_modify_bind (ensures_pure ?_)
    rw [wrap_of_lt (by omega)]
    exact .listed hpos (of_decide_eq_true hfit) hfound

/-- A heap that was made larger without wrapping has a block at its old limit that is large
enough. -/
theorem Sound.grown (h : Sound s hs fs) {s1 : Mem}
    (hexp : Expanded s s1 (expandPages (wrap (k + headerSize)))) (hk : k + 4143 < 2 ^ 64)
    (hmono : s.heapCurrentLimit ≤ s1.heapCurrentLimit) : ((s1.setSize s.heapCurrentLimit
        (wsub (wsub s1.heapCurrentLimit s.heapCurrentLimit) headerSize)).setIsFree
          s.heapCurrentLimit false).setNext s.heapCurrentLimit 0 =
        s1.header s.heapCurrentLimit s1.heapCurrentLimit false ∧
      wrap (s.heapCurrentLimit + headerSize) = s.heapCurrentLimit + headerSize ∧
      Layout (s1.header s.heapCurrentLimit s1.heapCurrentLimit false) (hs ++ [s.heapCurrentLimit]) fs ∧
      k ≤ (s1.header s.heapCurrentLimit s1.heapCurrentLimit false).sizeAt s.heapCurrentLimit := by
  obtain ⟨hlim, hlt⟩ := hexp.limit_eq h.bound hk hmono
  refine ⟨?_, wrap_of_lt (by omega), ?_, ?_⟩
  · rw [wsub_of_le hmono hlt, wsub_of_le (by omega) (by omega)]
    rfl
  · exact h.toLayout.extend hexp.heapBytes hexp.heapFreeList (by omega) hlt false
  · rw [Mem.header_sizeAt (.inl rfl) hlt, if_pos rfl]
    omega

theorem Sound.kmallocRounded (h : Sound s hs fs) (hk : k + 4143 < 2 ^ 64) :
    Ensures (kmallocRounded k) s
      (fun p s' => s.heapCurrentLimit ≤ s'.heapCurrentLimit →
        ∃ hs' fs', Allocated s s' hs hs' fs fs' k p)
      (fun s' => s'.pmm.pmmAlloc = none) := by
  have hpages : expandPages (wrap (k + headerSize)) ≠ 0 := by
    simp only [expandPages, headerSize, wrap]
    omega
  refine (h.served k).mono (fun p s' hserved hwrap => ?_) fun s' hs' => hs'.resolve_right hpages
  cases hserved with
  | listed hf hfit =>
    obtain ⟨hs', fs', hall, -⟩ := h.take_new hf hfit
    exact ⟨hs', fs', hall⟩
  | @grown s1 hexp _ =>
    have hmono : s.heapCurrentLimit ≤ s1.heapCurrentLimit := by simpa using hwrap
    obtain ⟨hlim, hlt⟩ := hexp.limit_eq h.bound hk hmono
    obtain ⟨heq, hp, -⟩ := h.grown hexp hk hmono
    rw [heq, hp]
    exact h.grow hexp.heapBytes hexp.heapFreeList hlim hlt

/-- **`kmalloc`** allocates, or the machine stops for the lack of a frame. -/
theorem Sound.kmalloc (h : Sound s hs fs) (hpos : 0 < size) (hsize : size + 4158 < 2 ^ 64) :
    Ensures (kmalloc size) s
      (fun p s' => s.heapCurrentLimit ≤ s'.heapCurrentLimit →
        ∃ hs' fs', Allocated s s' hs hs' fs fs' size p)
      (fun s' => s'.pmm.pmmAlloc = none) := by
  have hround : size ≤ wrap (size + 15) / 16 * 16 ∧ wrap (size + 15) / 16 * 16 + 4143 < 2 ^ 64 := by
    unfold wrap
    omega
  unfold Memory.kmalloc
  rw [if_neg (by omega)]
  refine (h.kmallocRounded hround.2).imp fun p s' hp hwrap => ?_
  obtain ⟨hs', fs', hall⟩ := hp hwrap
  exact ⟨hs', fs', hall.mono hround.1⟩

theorem heapInit_sound_of_limit (hlim : kernelHeapStart + headerSize ≤ s.heapCurrentLimit)
    (hbound : s.heapCurrentLimit < 2 ^ 64) :
    Sound ((s.header kernelHeapStart s.heapCurrentLimit true).setFreeList kernelHeapStart)
      [kernelHeapStart] [kernelHeapStart] := by
  have hself : Apart kernelHeapStart kernelHeapStart := .inl rfl
  have hend : ((s.header kernelHeapStart s.heapCurrentLimit true).setFreeList
      kernelHeapStart).heapCurrentLimit = s.heapCurrentLimit := by simp [Mem.header]
  refine ⟨⟨⟨rfl, ?_⟩, ⟨rfl, by decide, ?_⟩, List.nodup_singleton _, fun _ => id, ?_⟩, fun c hc => ?_⟩
  · rw [hend, Mem.sizeAt_setFreeList, Mem.header_sizeAt hself hbound, if_pos rfl, Tiles]
    omega
  · rw [Mem.nextAt_setFreeList, Mem.header_nextAt hself, if_pos rfl, Linked]
  · rw [hend]
    exact hbound
  · obtain rfl := List.mem_singleton.1 hc
    rw [Mem.isFreeAt_setFreeList, Mem.header_isFreeAt hself, if_pos rfl]
    simp

/-- **`heap_init`** leaves one free block. -/
theorem heapInit_sound (s : Mem) :
    Ensures heapInit s (fun _ s' => Sound s' [kernelHeapStart] [kernelHeapStart])
      (fun _ => True) := by
  have hstart : kernelHeapStart < 2 ^ 64 := by decide
  refine ensures_modify_bind (ensures_bind ?_)
  refine (heapExpand_spec _ hstart).mono ?_ fun _ _ => trivial
  rintro r s1 ⟨k, hk, hexp, -⟩
  refine ensures_read_bind ?_
  have hlimit : s1.heapCurrentLimit = kernelHeapStart + 4096 * k := by
    rw [hexp.limit]
    simp only [expandPages, headerSize, wrap, kernelHeapStart] at hk ⊢
    omega
  by_cases hzero : s1.heapCurrentLimit = kernelHeapStart
  · rw [if_pos hzero]
    exact ensures_halt trivial
  · rw [if_neg hzero]
    have hbound : s1.heapCurrentLimit < 2 ^ 64 := by
      rw [hexp.limit]
      exact Nat.mod_lt _ (by decide)
    have hle : kernelHeapStart + headerSize ≤ s1.heapCurrentLimit := by
      unfold headerSize
      omega
    refine ensures_modify ?_
    rw [wsub_of_le (by omega) hbound, wsub_of_le (by omega) (by omega)]
    exact heapInit_sound_of_limit hle hbound

/-! ## Runs -/

/-- The heap, and the pointers `kmalloc` has returned so far. -/
structure HeapState where
  mem : Mem
  returned : List ℕ

/-- What the kernel does with its heap: the two calls, and stores to blocks it holds. -/
inductive HeapEvent
  | kmalloc (size : ℕ)
  | kfree (ptr : ℕ)
  | store (ptr off : ℕ) (v : UInt8)

/-- One event.  `kmalloc` is asked for at most half the address space and does not make the limit
wrap; `kfree` gets the null pointer or any pointer returned so far, freed or not; a store goes to
the block behind such a pointer while it is not free. -/
def HeapState.step (e : HeapEvent) (st : HeapState) : Option HeapState :=
  match e with
  | .kmalloc size =>
    if size ≤ 2 ^ 63 then
      match Memory.kmalloc size st.mem with
      | .done p s' =>
        if st.mem.heapCurrentLimit ≤ s'.heapCurrentLimit then some ⟨s', p :: st.returned⟩
        else none
      | .halt _ => none
    else none
  | .kfree ptr =>
    if ptr = 0 ∨ ptr ∈ st.returned then some ⟨st.mem.kfree ptr, st.returned⟩ else none
  | .store ptr off v =>
    if ptr ≠ 0 ∧ ptr ∈ st.returned ∧ st.mem.isFreeAt (ptr - headerSize) = false ∧
        off < st.mem.sizeAt (ptr - headerSize) then
      some ⟨{ st.mem with heapBytes := update st.mem.heapBytes (ptr + off) v },
        st.returned⟩
    else none

/-- The heap is sound and every pointer returned is that of a block. -/
structure Kept (st : HeapState) (hs fs : List ℕ) : Prop where
  sound : Sound st.mem hs fs
  returned : ∀ p ∈ st.returned, p ≠ 0 → ∃ h ∈ hs, p = h + headerSize

/-- A store to a block changes no header. -/
theorem Sound.store (h : Sound s hs fs) (hb : b ∈ hs) {off : ℕ} (hoff : off < s.sizeAt b) (v : UInt8) :
    Sound { s with heapBytes := update s.heapBytes (b + headerSize + off) v } hs fs := by
  refine h.congr rfl rfl fun c hc x hx hlt => ?_
  have hapart := h.tiles.apart hb hc
  refine update_of_ne ?_ _ _
  unfold headerSize at *
  omega

variable {st st' : HeapState}

/-- What a `kmalloc` event says. -/
theorem HeapState.step_kmalloc (he : HeapState.step (.kmalloc size) st = some st') :
    ∃ p, size ≤ 2 ^ 63 ∧ Memory.kmalloc size st.mem = .done p st'.mem ∧
      st.mem.heapCurrentLimit ≤ st'.mem.heapCurrentLimit ∧ st'.returned = p :: st.returned := by
  simp only [HeapState.step] at he
  split_ifs at he with hsize
  cases hrun : Memory.kmalloc size st.mem with
  | halt s' =>
    rw [hrun] at he
    cases he
  | done p s' =>
    simp only [hrun] at he
    split_ifs at he with hlim
    cases he
    exact ⟨p, hsize, rfl, hlim, rfl⟩

/-- An allocation keeps the heap, and every header. -/
theorem Kept.kmalloc (h : Kept st hs fs) (hsize : size + 4158 < 2 ^ 64)
    (hrun : Memory.kmalloc size st.mem = .done p s')
    (hlim : st.mem.heapCurrentLimit ≤ s'.heapCurrentLimit) :
    ∃ hs' fs', Kept ⟨s', p :: st.returned⟩ hs' fs' ∧ ∀ c ∈ hs, c ∈ hs' := by
  rcases Nat.eq_zero_or_pos size with rfl | hpos
  · obtain ⟨rfl, rfl⟩ : 0 = p ∧ st.mem = s' := by simpa [Memory.kmalloc] using hrun
    refine ⟨hs, fs, ⟨h.sound, fun q hq hne => ?_⟩, fun _ => id⟩
    exact h.returned q ((List.mem_cons.1 hq).resolve_left hne) hne
  · obtain ⟨hs', fs', hall⟩ := (h.sound.kmalloc hpos hsize).apply hrun hlim
    obtain ⟨b, hb, rfl, -⟩ := hall.block
    refine ⟨hs', fs', ⟨hall.sound, fun q hq hne => ?_⟩, hall.old⟩
    rcases List.mem_cons.1 hq with rfl | hq
    · exact ⟨b, hb, rfl⟩
    · obtain ⟨c, hc, hqc⟩ := h.returned q hq hne
      exact ⟨c, hall.old c hc, hqc⟩

/-- **One event** keeps the heap, and every header. -/
theorem Kept.step {e : HeapEvent} (h : Kept st hs fs) (he : HeapState.step e st = some st') :
    ∃ hs' fs', Kept st' hs' fs' ∧ ∀ c ∈ hs, c ∈ hs' := by
  cases e with
  | kmalloc size =>
    obtain ⟨p, hsize, hrun, hlim, hret⟩ := HeapState.step_kmalloc he
    obtain ⟨mem, returned⟩ := st'
    obtain rfl : returned = p :: st.returned := hret
    exact h.kmalloc (by omega) hrun hlim
  | kfree ptr =>
    simp only [HeapState.step] at he
    split_ifs at he with hptr
    cases he
    by_cases hzero : ptr = 0
    · refine ⟨hs, fs, ⟨?_, h.returned⟩, fun _ => id⟩
      rw [Mem.kfree, if_pos hzero]
      exact h.sound
    · obtain ⟨b, hb, rfl⟩ := h.returned ptr (hptr.resolve_left hzero) hzero
      obtain ⟨fs', hsound⟩ := h.sound.kfree hb
      exact ⟨hs, fs', ⟨hsound, h.returned⟩, fun _ => id⟩
  | store ptr off v =>
    simp only [HeapState.step] at he
    split_ifs at he with hptr
    cases he
    obtain ⟨hne, hmem, -, hoff⟩ := hptr
    obtain ⟨b, hb, rfl⟩ := h.returned ptr hmem hne
    rw [Nat.add_sub_cancel] at hoff
    exact ⟨hs, fs, ⟨h.sound.store hb hoff v, h.returned⟩, fun _ => id⟩

/-- **A run** keeps the heap, and every header. -/
theorem Kept.run {es : List HeapEvent} (h : Kept st hs fs) (hrun : Run HeapState.step st es st') :
    ∃ hs' fs', Kept st' hs' fs' ∧ ∀ c ∈ hs, c ∈ hs' := by
  refine hrun.invariant (I := fun t => ∃ hs' fs', Kept t hs' fs' ∧ ∀ c ∈ hs, c ∈ hs') ?_
    ⟨hs, fs, h, fun _ => id⟩
  rintro e t t' ⟨hs1, fs1, h1, hold⟩ he
  obtain ⟨hs2, fs2, h2, hold'⟩ := h1.step he
  exact ⟨hs2, fs2, h2, fun c hc => hold' c (hold c hc)⟩

/-- **Kernel heap integrity.**  After `heap_init` and any run, the block headers `hs` tile the heap;
the free list is a duplicate-free list of exactly the blocks flagged free; every header is one in
every later state; and `kmalloc` returns a block that was free or is new, is large enough, and is
the only one whose flag it changes, or stops for the lack of a frame. -/
theorem heap_integrity {boot s0 : Mem} {st : HeapState} {es : List HeapEvent}
    (hinit : heapInit boot = .done () s0) (hrun : Run HeapState.step ⟨s0, []⟩ es st) :
    ∃ hs fs, Tiles headerSize st.mem.sizeAt kernelHeapStart st.mem.heapCurrentLimit hs ∧
      Linked st.mem.nextAt st.mem.heapFreeList fs ∧ fs.Nodup ∧
      (∀ h, h ∈ fs ↔ h ∈ hs ∧ st.mem.isFreeAt h = true) ∧
      (∀ es' st', Run HeapState.step st es' st' → ∃ hs',
        Tiles headerSize st'.mem.sizeAt kernelHeapStart st'.mem.heapCurrentLimit hs' ∧
          ∀ h ∈ hs, h ∈ hs') ∧
      ∀ size, 0 < size → size ≤ 2 ^ 63 → Ensures (kmalloc size) st.mem
        (fun p s' => st.mem.heapCurrentLimit ≤ s'.heapCurrentLimit → ∃ hs' h,
          Tiles headerSize s'.sizeAt kernelHeapStart s'.heapCurrentLimit hs' ∧ h ∈ hs' ∧
            p = h + headerSize ∧ (h ∈ hs ∧ st.mem.isFreeAt h = true ∨ h ∉ hs) ∧
            size ≤ s'.sizeAt h ∧ s'.isFreeAt h = false ∧
            ∀ c ∈ hs, c ≠ h → s'.isFreeAt c = st.mem.isFreeAt c)
        (fun s' => s'.pmm.pmmAlloc = none) := by
  have hsound := heapInit_sound boot
  rw [Ensures, hinit] at hsound
  have hstart : Kept ⟨s0, []⟩ [kernelHeapStart] [kernelHeapStart] := ⟨hsound, fun p hp => by cases hp⟩
  obtain ⟨hs, fs, h, -⟩ := hstart.run hrun
  have hmem : ∀ b, b ∈ fs ↔ b ∈ hs ∧ st.mem.isFreeAt b = true := fun b =>
    ⟨fun hb => ⟨h.sound.sub b hb, (h.sound.free_iff b (h.sound.sub b hb)).2 hb⟩,
      fun hb => (h.sound.free_iff b hb.1).1 hb.2⟩
  refine ⟨hs, fs, h.sound.tiles, h.sound.linked, h.sound.nodup, hmem, fun es' st' hrun' => ?_,
    fun size hpos hsize => ?_⟩
  · obtain ⟨hs', fs', h', hold⟩ := h.run hrun'
    exact ⟨hs', h'.sound.tiles, hold⟩
  · refine (h.sound.kmalloc hpos (by omega)).imp fun p s' hp hlim => ?_
    obtain ⟨hs', fs', hall⟩ := hp hlim
    obtain ⟨b, hb, hpb, hwas, hrest⟩ := hall.block
    exact ⟨hs', b, hall.sound.tiles, hb, hpb, hwas.imp_left (hmem b).1, hrest⟩

/-- The events `es` after `heap_init`, as a computation. -/
def afterInit (step : HeapEvent → HeapState → Option HeapState) (boot : Mem)
    (es : List HeapEvent) : Option HeapState :=
  match heapInit boot with
  | .done _ s0 => Run.exec step es ⟨s0, []⟩
  | .halt _ => none

theorem run_of_afterInit {step : HeapEvent → HeapState → Option HeapState} {boot : Mem}
    {es : List HeapEvent} (h : afterInit step boot es = some st) :
    ∃ s0, heapInit boot = .done () s0 ∧ Run step ⟨s0, []⟩ es st := by
  unfold afterInit at h
  cases hinit : heapInit boot with
  | done u s0 =>
    rw [hinit] at h
    exact ⟨s0, rfl, Run.of_exec h⟩
  | halt s' =>
    rw [hinit] at h
    cases h

/-- Six frames, the first two taken: one heap page and its three tables fit. -/
def sixFrames : Mem where
  phys _ := Page.zero
  pmm := { bitmap := fun _ => 3#8, totalPages := 6, usedPages := 2 }
  kernelPml4 := 1
  heapCurrentLimit := 0
  heapFreeList := 0
  heapBytes _ := 0

/-- A block, freed twice, and taken again. -/
def freedTwice : List HeapEvent :=
  [.kmalloc 100, .kfree (kernelHeapStart + headerSize), .kfree (kernelHeapStart + headerSize),
    .kmalloc 40]

/-- The free list survives a double free. -/
theorem heap_integrity_freedTwice :
    ∃ s0 st, heapInit sixFrames = .done () s0 ∧ Run HeapState.step ⟨s0, []⟩ freedTwice st ∧
      ∃ fs, Linked st.mem.nextAt st.mem.heapFreeList fs ∧ fs.Nodup := by
  obtain ⟨st, hst⟩ : ∃ st, afterInit HeapState.step sixFrames freedTwice = some st :=
    Option.isSome_iff_exists.1 (by decide +kernel)
  obtain ⟨s0, hinit, hrun⟩ := run_of_afterInit hst
  obtain ⟨-, fs, -, hlinked, hnodup, -⟩ := heap_integrity hinit hrun
  exact ⟨s0, st, hinit, hrun, fs, hlinked, hnodup⟩

end Hvos.Memory
