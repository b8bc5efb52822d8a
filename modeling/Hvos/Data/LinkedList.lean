import Hvos.Memory.HeapFields
import Mathlib.Data.List.GetD

/-!
# Data/LinkedList — `list.c` on heap bytes

A `list_t` is a count and the head of a chain of nodes, each in a block of its own that `kzalloc`
gave (`IsList`).  `list_push` and `list_insert_at` before the end insert what they are given. 
`list_append` returns before it does anything, since the `node` it tests is the null pointer it has
just assigned; and `list_insert_at` at the end is `list_append` (`inserts_iff`).
-/

namespace Hvos.Data

open Memory Bytes Blocks Prog

/-! ## `list_t` and `list_node_t` -/

/-- `list->count`. -/
@[irreducible] def listCount (s : Mem) (list : ℕ) : ℕ := load s.heapBytes list 8

/-- `list->head`. -/
@[irreducible] def listHead (s : Mem) (list : ℕ) : ℕ := load s.heapBytes (list + 8) 8

/-- `node->data`. -/
@[irreducible] def nodeData (s : Mem) (node : ℕ) : ℕ := load s.heapBytes node 8

/-- `node->next`. -/
@[irreducible] def nodeNext (s : Mem) (node : ℕ) : ℕ := load s.heapBytes (node + 8) 8

/-- `list->count = v`. -/
def setCount (s : Mem) (list v : ℕ) : Mem := s.storeHeap list v

/-- `list->head = v`. -/
def setHead (s : Mem) (list v : ℕ) : Mem := s.storeHeap (list + 8) v

/-- `node->data = v`. -/
def setData (s : Mem) (node v : ℕ) : Mem := s.storeHeap node v

/-- `node->next = v`. -/
def setNext (s : Mem) (node v : ℕ) : Mem := s.storeHeap (node + 8) v

/-! ## Making and reading -/

/-- `init_list`. -/
def initList : Prog Mem ℕ := do
  let list ← kzalloc 16
  if list = 0 then pure 0
  else
    Prog.modify fun s => setHead (setCount s list 0) list 0
    pure list

/-- `new_node`. -/
def newNode (data next : ℕ) : Prog Mem ℕ := do
  let node ← kzalloc 16
  if node = 0 then pure 0
  else
    Prog.modify fun s => setNext (setData s node data) node next
    pure node

/-- The loop of `list_get_node_at`: so many links, up to the null pointer. -/
def walk (s : Mem) : ℕ → ℕ → ℕ
  | 0, current => current
  | k + 1, current => if current ≠ 0 then walk s k (nodeNext s current) else current

/-- `list_get_node_at`. -/
def listGetNodeAt (s : Mem) (list at' : ℕ) : ℕ :=
  if at' ≥ listCount s list then 0 else walk s at' (listHead s list)

/-- `list_get_at`. -/
def listGetAt (s : Mem) (list at' : ℕ) : ℕ :=
  let node := listGetNodeAt s list at'
  if node ≠ 0 then nodeData s node else 0

/-- A callback: it may read memory, and matches where it does not return 0. -/
abbrev Callback := Mem → ℕ → ℕ → ℤ

/-- The loop of `get_first_match`.  Nothing after so many nodes if it is still in the loop. -/
def matchFrom (s : Mem) (callback : Callback) (args : ℕ) : ℕ → ℕ → Option ℕ
  | 0, _ => none
  | fuel + 1, p =>
    if p = 0 then some 0
    else if callback s (nodeData s p) args ≠ 0 then some (nodeData s p)
    else matchFrom s callback args fuel (nodeNext s p)

/-- `get_first_match`. -/
def getFirstMatch (s : Mem) (list : ℕ) (callback : Option Callback) (args : ℕ) : Option ℕ :=
  match callback with
  | none => some 0
  | some callback =>
    if list = 0 ∨ listCount s list = 0 then some 0
    else matchFrom s callback args (blockLimit s) (listHead s list)

/-! ## Adding -/

/-- `list_push`. -/
def listPush (list data : ℕ) : Prog Mem Unit := do
  let head ← Prog.read fun s => listHead s list
  let new ← newNode data head
  Prog.modify fun s => setHead s list new
  Prog.modify fun s => setCount s list (listCount s list + 1)

/-- `list_append`. -/
def listAppend (list data : ℕ) : Prog Mem Unit := do
  let node := 0
  if node = 0 then pure ()
  else
    let count ← Prog.read fun s => listCount s list
    if count ≠ 0 then
      let last ← Prog.read fun s => listGetAt s list (count - 1)
      let new ← newNode data 0
      Prog.modify fun s => setNext s last new
    else
      Prog.modify fun s => setHead s list node
    Prog.modify fun s => setCount s list (listCount s list + 1)

/-- `list_insert_at`.  The null pointer is not to be written through. -/
def listInsertAt (list at' data : ℕ) : Prog Mem Unit := do
  let count ← Prog.read fun s => listCount s list
  if at' = count then listAppend list data
  else if at' = 0 then listPush list data
  else
    let prev ← Prog.read fun s => listGetNodeAt s list (at' - 1)
    if prev = 0 then Prog.halt
    else
      let next ← Prog.read fun s => nodeNext s prev
      let new ← newNode data next
      Prog.modify fun s => setNext s prev new
      Prog.modify fun s => setCount s list (listCount s list + 1)

/-! ## Removing -/

/-- `if (node->data != NULL) kfree(node->data)`. -/
def freeData (s : Mem) (node : ℕ) : Mem :=
  if nodeData s node ≠ 0 then s.kfree (nodeData s node) else s

/-- `list_pop`. -/
def listPop (list : ℕ) : Prog Mem Unit := do
  let count ← Prog.read fun s => listCount s list
  if count = 0 then pure ()
  else
    let head ← Prog.read fun s => listHead s list
    if head = 0 then Prog.halt
    else
      let next ← Prog.read fun s => nodeNext s head
      Prog.modify fun s => freeData s head
      Prog.modify fun s => s.kfree (listHead s list)
      Prog.modify fun s => setHead s list next
      Prog.modify fun s => setCount s list (wsub (listCount s list) 1)

/-- The loop of `list_remove_at`, which counts in 32 bits.  Nothing after so many nodes if it is
still in the loop. -/
def removeWalk (s : Mem) (at' : ℕ) : ℕ → ℕ → ℕ → Option ℕ
  | 0, _, _ => none
  | fuel + 1, i, current =>
    if i < at' ∧ current ≠ 0 then removeWalk s at' fuel ((i + 1) % 2 ^ 32) (nodeNext s current)
    else some current

/-- `list_remove_at`.  The data is freed twice, and the node not at all. -/
def listRemoveAt (list at' : ℕ) : Prog Mem Unit := do
  let count ← Prog.read fun s => listCount s list
  if count = 0 then pure ()
  else if at' = 0 then listPop list
  else
    let current ← Prog.read fun s => (removeWalk s at' (blockLimit s) 1 (listHead s list)).getD 0
    if current = 0 then Prog.halt
    else
      let temp ← Prog.read fun s => nodeNext s current
      if temp = 0 then Prog.halt
      else
        Prog.modify fun s => setNext s current (nodeNext s temp)
        Prog.modify fun s => freeData s temp
        Prog.modify fun s => s.kfree (nodeData s temp)
        Prog.modify fun s => setCount s list (wsub (listCount s list) 1)

/-! ## Fields -/

variable {s s' : Mem} {A : Set ℕ} {l p q v d k b c : ℕ} {ps xs as cs : List ℕ}

theorem nodeNext_lt (s : Mem) (p : ℕ) : nodeNext s p < 2 ^ 64 := by
  unfold nodeNext
  exact load_lt

section Fields

variable (h : Spares A s s') (hq : q ∉ A) (hu : InUse s q 16)
include h hq hu

theorem listCount_spares : listCount s' q = listCount s q := by
  unfold listCount
  exact h.load (o := 0) hq hu (by decide)

theorem listHead_spares : listHead s' q = listHead s q := by
  unfold listHead
  exact h.load hq hu (by decide)

theorem nodeData_spares : nodeData s' q = nodeData s q := by
  unfold nodeData
  exact h.load (o := 0) hq hu (by decide)

theorem nodeNext_spares : nodeNext s' q = nodeNext s q := by
  unfold nodeNext
  exact h.load hq hu (by decide)

end Fields

/-- `node->next = v` for a node. -/
theorem setNext_spec (hs : Healthy s) (hb : InUse s b 16) (hv : v < 2 ^ 64) :
    Healthy (setNext s b v) ∧ Spares {b} s (setNext s b v) ∧ InUse (setNext s b v) b 16 ∧
      nodeNext (setNext s b v) b = v ∧ nodeData (setNext s b v) b = nodeData s b := by
  obtain ⟨hs', hsp, hu⟩ := hs.storeHeap (o := 8) hb (by decide) v
  unfold nodeNext nodeData
  exact ⟨hs', hsp, hu, load_storeHeap_self hv, load_storeHeap_of_disjoint (.inr le_rfl)⟩

/-- `node->data = v` for a node. -/
theorem setData_spec (hs : Healthy s) (hb : InUse s b 16) (hv : v < 2 ^ 64) :
    Healthy (setData s b v) ∧ Spares {b} s (setData s b v) ∧ InUse (setData s b v) b 16 ∧
      nodeData (setData s b v) b = v := by
  obtain ⟨hs', hsp, hu⟩ := hs.storeHeap (o := 0) hb (by decide) v
  unfold nodeData
  exact ⟨hs', hsp, hu, load_storeHeap_self hv⟩

/-- `list->head = v` for a list. -/
theorem setHead_spec (hs : Healthy s) (hl : InUse s l 16) (hv : v < 2 ^ 64) :
    Healthy (setHead s l v) ∧ Spares {l} s (setHead s l v) ∧ InUse (setHead s l v) l 16 ∧
      listHead (setHead s l v) l = v ∧ listCount (setHead s l v) l = listCount s l := by
  obtain ⟨hs', hsp, hu⟩ := hs.storeHeap (o := 8) hl (by decide) v
  unfold listHead listCount
  exact ⟨hs', hsp, hu, load_storeHeap_self hv, load_storeHeap_of_disjoint (.inr le_rfl)⟩

/-- `list->count = v` for a list. -/
theorem setCount_spec (hs : Healthy s) (hl : InUse s l 16) (hv : v < 2 ^ 64) :
    Healthy (setCount s l v) ∧ Spares {l} s (setCount s l v) ∧ InUse (setCount s l v) l 16 ∧
      listHead (setCount s l v) l = listHead s l ∧ listCount (setCount s l v) l = v := by
  obtain ⟨hs', hsp, hu⟩ := hs.storeHeap (o := 0) hl (by decide) v
  unfold listHead listCount
  exact ⟨hs', hsp, hu, load_storeHeap_of_disjoint (.inl le_rfl), load_storeHeap_self hv⟩

/-! ## What a list is -/

/-- **The chain from `v` on** runs through the nodes `ps` and holds `xs`. -/
structure ChainFrom (s : Mem) (v : ℕ) (ps xs : List ℕ) : Prop where
  nodes : ∀ p ∈ ps, InUse s p 16
  nodup : ps.Nodup
  linked : Linked (nodeNext s) v ps
  data : ps.map (nodeData s) = xs

/-- **The list `l` holds `xs`**, in the nodes `ps`. -/
structure IsList (s : Mem) (l : ℕ) (ps xs : List ℕ) : Prop where
  header : InUse s l 16
  notMem : l ∉ ps
  chain : ChainFrom s (listHead s l) ps xs
  count : listCount s l = ps.length

namespace ChainFrom

section

variable (h : ChainFrom s v ps xs)
include h

theorem length_eq : xs.length = ps.length := by
  rw [← h.data, List.length_map]

/-- What leaves the nodes alone leaves the chain alone. -/
theorem spares (hsp : Spares A s s') (hA : ∀ p ∈ ps, p ∉ A) : ChainFrom s' v ps xs := by
  refine ⟨fun p hp => hsp.inUse (hA p hp) (h.nodes p hp), h.nodup, ?_, ?_⟩
  · exact h.linked.congr fun p hp => nodeNext_spares hsp (hA p hp) (h.nodes p hp)
  · rw [← h.data]
    exact List.map_congr_left fun p hp => nodeData_spares hsp (hA p hp) (h.nodes p hp)

theorem length_lt (hs : Healthy s) : ps.length < blockLimit s ∧ ps.length + 1 < 2 ^ 64 :=
  hs.length_lt h.nodup h.nodes

/-- A chain starts at a pointer. -/
theorem lt (hs : Healthy s) : v < 2 ^ 64 := by
  cases ps with
  | nil =>
    obtain rfl : v = 0 := h.linked
    decide
  | cons p ps =>
    obtain ⟨rfl, -⟩ := h.linked
    exact (h.nodes v List.mem_cons_self).lt hs

/-- A node in front. -/
theorem cons (hp : InUse s p 16) (hnot : p ∉ ps) (hnext : nodeNext s p = v)
    (hdata : nodeData s p = d) : ChainFrom s p (p :: ps) (d :: xs) where
  nodes q hq := by
    rcases List.mem_cons.1 hq with rfl | hq
    · exact hp
    · exact h.nodes q hq
  nodup := List.nodup_cons.2 ⟨hnot, h.nodup⟩
  linked := ⟨rfl, hp.ne_zero, hnext ▸ h.linked⟩
  data := by rw [List.map_cons, hdata, h.data]

end

/-- The chain behind the first node. -/
theorem tail (h : ChainFrom s v (p :: ps) xs) : ChainFrom s (nodeNext s p) ps xs.tail where
  nodes q hq := h.nodes q (List.mem_cons_of_mem p hq)
  nodup := (List.nodup_cons.1 h.nodup).2
  linked := h.linked.2.2
  data := by
    rw [← h.data]
    rfl

end ChainFrom

namespace IsList

theorem length_eq (h : IsList s l ps xs) : xs.length = ps.length := h.chain.length_eq

theorem count_eq (h : IsList s l ps xs) : listCount s l = xs.length := h.count.trans h.length_eq.symm

/-- What leaves the blocks of a list alone leaves the list alone. -/
theorem spares (h : IsList s l ps xs) (hsp : Spares A s s') (hA : ∀ q ∈ l :: ps, q ∉ A) :
    IsList s' l ps xs := by
  have hl := hA l List.mem_cons_self
  refine ⟨hsp.inUse hl h.header, h.notMem, ?_, ?_⟩
  · rw [listHead_spares hsp hl h.header]
    exact h.chain.spares hsp fun p hp => hA p (List.mem_cons_of_mem l hp)
  · rw [listCount_spares hsp hl h.header, h.count]

end IsList

/-! ## Reading -/

/-- **Chains are walked link by link.** -/
theorem walk_eq (h : Linked (nodeNext s) p ps) (k : ℕ) : walk s k p = ps.getD k 0 := by
  induction k generalizing p ps with
  | zero =>
    cases ps with
    | nil => exact h
    | cons x ps => exact h.1
  | succ k ih =>
    cases ps with
    | nil =>
      obtain rfl : p = 0 := h
      rfl
    | cons x ps =>
      obtain ⟨rfl, hne, h⟩ := h
      rw [walk, if_pos hne, ih h]
      rfl

/-- **`list_get_node_at`** returns the node, or the null pointer. -/
theorem IsList.getNodeAt (h : IsList s l ps xs) (i : ℕ) : listGetNodeAt s l i = ps.getD i 0 := by
  unfold listGetNodeAt
  split_ifs with hi
  · rw [h.count] at hi
    rw [List.getD_eq_default _ _ hi]
  · exact walk_eq h.chain.linked i

/-- **`list_get_at`** returns the element, or the null pointer. -/
theorem IsList.getAt (h : IsList s l ps xs) (i : ℕ) : listGetAt s l i = xs.getD i 0 := by
  simp only [listGetAt, h.getNodeAt]
  rcases Nat.lt_or_ge i ps.length with hi | hi
  · have hmem : ps.getD i 0 ∈ ps := by
      rw [List.getD_eq_getElem _ _ hi]
      exact List.getElem_mem hi
    have hx : i < xs.length := by rwa [h.length_eq]
    rw [if_pos (h.chain.nodes _ hmem).ne_zero, List.getD_eq_getElem _ _ hi,
      List.getD_eq_getElem _ _ hx]
    simp only [← h.chain.data, List.getElem_map]
  · have hx : xs.length ≤ i := by rwa [h.length_eq]
    rw [List.getD_eq_default _ _ hi, List.getD_eq_default _ _ hx, if_neg (by simp)]

/-- The loop of `get_first_match` over a chain. -/
theorem matchFrom_eq (h : Linked (nodeNext s) p ps) (callback : Callback) (args : ℕ)
    (hk : ps.length < k) : matchFrom s callback args k p =
      some (((ps.map (nodeData s)).find? fun x => callback s x args ≠ 0).getD 0) := by
  induction ps generalizing p k with
  | nil =>
    obtain rfl : p = 0 := h
    obtain ⟨k, rfl⟩ : ∃ j, k = j + 1 := ⟨k - 1, by simp at hk; omega⟩
    rfl
  | cons x ps ih =>
    obtain ⟨rfl, hne, h⟩ := h
    obtain ⟨k, rfl⟩ : ∃ j, k = j + 1 := ⟨k - 1, by simp at hk; omega⟩
    rw [matchFrom, if_neg hne, List.map_cons, List.find?_cons]
    by_cases hcb : callback s (nodeData s p) args ≠ 0
    · simp [hcb]
    · rw [if_neg hcb, ih h (by simpa using hk)]
      simp only [hcb, decide_false]

/-- **`get_first_match`** returns the first element that matches, or the null pointer. -/
theorem IsList.firstMatch (h : IsList s l ps xs) (hs : Healthy s) (callback : Callback) (args : ℕ) :
    getFirstMatch s l (some callback) args =
      some ((xs.find? fun x => callback s x args ≠ 0).getD 0) := by
  have hl : l ≠ 0 := h.header.ne_zero
  simp only [getFirstMatch, hl, false_or]
  split_ifs with hzero
  · rw [h.count_eq, List.length_eq_zero_iff] at hzero
    rw [hzero]
    rfl
  · rw [matchFrom_eq h.chain.linked callback args (h.chain.length_lt hs).1, h.chain.data]

/-! ## Writing -/

/-- `list->head = v`, for a chain from `v` on. -/
theorem ChainFrom.setHead (h : ChainFrom s v ps xs) (hs : Healthy s) (hl : InUse s l 16)
    (hnot : l ∉ ps) : ChainFrom (setHead s l v) (listHead (setHead s l v) l) ps xs := by
  obtain ⟨-, hsp, -, hhead, -⟩ := setHead_spec hs hl (h.lt hs)
  rw [hhead]
  exact h.spares hsp fun p hp heq => hnot (Set.mem_singleton_iff.1 heq ▸ hp)

/-- `list->count` set to the length of the chain. -/
theorem ChainFrom.setCount (h : ChainFrom s (listHead s l) ps xs) (hs : Healthy s)
    (hl : InUse s l 16) (hnot : l ∉ ps) : IsList (setCount s l ps.length) l ps xs ∧
      Healthy (Data.setCount s l ps.length) ∧ Spares {l} s (Data.setCount s l ps.length) := by
  have hlen := (h.length_lt hs).2
  obtain ⟨hs', hsp, hu, hhead, hcount⟩ := setCount_spec hs hl (v := ps.length) (by omega)
  refine ⟨⟨hu, hnot, ?_, hcount⟩, hs', hsp⟩
  rw [hhead]
  exact h.spares hsp fun p hp heq => hnot (Set.mem_singleton_iff.1 heq ▸ hp)

/-! ## New nodes -/

/-- **`new_node`** gives a node with these two fields. -/
theorem newNode_spec (hs : Healthy s) (hd : d < 2 ^ 64) (hv : v < 2 ^ 64) : Ensures (newNode d v) s
      (fun p s' => Obtained s s' p 16 ∧ nodeData s' p = d ∧ nodeNext s' p = v)
      (fun s' => s'.pmm.pmmAlloc = none) := by
  refine (hs.kzalloc (by decide) (by decide)).bind fun p s1 hp => ?_
  rw [if_neg hp.block.ne_zero]
  refine ensures_modify_bind (ensures_pure ?_)
  obtain ⟨hs2, hsp2, hu2, hdata⟩ := setData_spec hp.healthy hp.block hd
  obtain ⟨hs3, hsp3, hu3, hnext, hsame⟩ := setNext_spec hs2 hu2 hv
  exact ⟨hp.of_spares hs3 hu3 (hsp2.trans hsp3), hsame.trans hdata, hnext⟩

/-- **`init_list`** gives an empty list. -/
theorem initList_spec (hs : Healthy s) :
    Ensures initList s (fun l s' => IsList s' l [] [] ∧ Obtained s s' l 16)
      (fun s' => s'.pmm.pmmAlloc = none) := by
  refine (hs.kzalloc (by decide) (by decide)).bind fun l s1 hl => ?_
  rw [if_neg hl.block.ne_zero]
  refine ensures_modify_bind (ensures_pure ?_)
  obtain ⟨hs2, hsp2, hu2, -, hcount⟩ := setCount_spec hl.healthy hl.block (v := 0) (by decide)
  obtain ⟨hs3, hsp3, hu3, hhead, hsame⟩ := setHead_spec hs2 hu2 (v := 0) (by decide)
  exact ⟨⟨hu3, List.not_mem_nil, ⟨by simp, List.nodup_nil, hhead, rfl⟩, hsame.trans hcount⟩,
    hl.of_spares hs3 hu3 (hsp2.trans hsp3)⟩

/-- The blocks of a list are none that was obtained since. -/
theorem IsList.ne_of_obtained (h : IsList s l ps xs) (hp : Obtained s s' p 16) : l ≠ p ∧ p ∉ ps :=
  ⟨fun heq => hp.fresh 16 (heq ▸ h.header), fun hmem => hp.fresh 16 (h.chain.nodes p hmem)⟩

/-! ## Adding -/

/-- **`list_push`** puts an element in front. -/
theorem IsList.push (h : IsList s l ps xs) (hs : Healthy s) (hd : d < 2 ^ 64) :
    Ensures (listPush l d) s
      (fun _ s' => ∃ p, IsList s' l (p :: ps) (d :: xs) ∧ Healthy s' ∧ Spares {l} s s' ∧
        ∀ m, ¬InUse s p m)
      (fun s' => s'.pmm.pmmAlloc = none) := by
  refine ensures_read_bind (ensures_bind ?_)
  refine (newNode_spec hs hd (h.chain.lt hs)).imp fun p s1 hp => ?_
  obtain ⟨hp, hdata, hnext⟩ := hp
  refine ensures_modify_bind (ensures_modify ⟨p, ?_⟩)
  obtain ⟨hlp, hnot⟩ := h.ne_of_obtained hp
  have h1 : IsList s1 l ps xs := h.spares hp.spares fun q _ => Set.notMem_empty q
  have hhead := listHead_spares hp.spares (Set.notMem_empty l) h.header
  have hchain : ChainFrom s1 p (p :: ps) (d :: xs) :=
    h1.chain.cons hp.block hnot (hnext.trans hhead.symm) hdata
  have hnot' : l ∉ p :: ps := by
    rw [List.mem_cons, not_or]
    exact ⟨hlp, h.notMem⟩
  obtain ⟨hs2, hsp2, hu2, -, hcount⟩ := setHead_spec hp.healthy h1.header (hp.block.lt hp.healthy)
  obtain ⟨hlist, hs3, hsp3⟩ := (hchain.setHead hp.healthy h1.header hnot').setCount hs2 hu2 hnot'
  rw [hcount, h1.count]
  exact ⟨hlist, hs3, ((hp.spares.mono (Set.empty_subset _)).trans hsp2).trans hsp3, hp.fresh⟩

/-- **A node inserted behind `b`.** -/
theorem ChainFrom.insert (h : ChainFrom s v (as ++ b :: cs) xs) (hs : Healthy s) (hp : InUse s p 16)
    (hnot : p ∉ as ++ b :: cs) (hnext : nodeNext s p = nodeNext s b) :
    ChainFrom (setNext s b p) v (as ++ b :: p :: cs)
        (xs.take (as.length + 1) ++ nodeData s p :: xs.drop (as.length + 1)) ∧
      Healthy (setNext s b p) ∧ Spares {b} s (setNext s b p) := by
  have hb : InUse s b 16 := h.nodes b (by simp)
  have hnodup := h.nodup
  obtain ⟨hs', hsp, hu, hbnext, hbdata⟩ := setNext_spec hs hb (hp.lt hs)
  have hpb : p ∉ ({b} : Set ℕ) := fun heq => hnot (by simp [Set.mem_singleton_iff.1 heq])
  have hrest : ∀ q ∈ as ++ cs, q ∉ ({b} : Set ℕ) := by
    rintro q hq rfl
    rw [List.nodup_middle, List.nodup_cons] at hnodup
    exact hnodup.1 hq
  have hin : ∀ q ∈ as ++ cs, InUse s q 16 := fun q hq => h.nodes q (by
    rcases List.mem_append.1 hq with hq | hq
    · exact List.mem_append_left _ hq
    · exact List.mem_append_right _ (List.mem_cons_of_mem b hq))
  have hdata : ∀ q ∈ as ++ cs, nodeData (setNext s b p) q = nodeData s q :=
    fun q hq => nodeData_spares hsp (hrest q hq) (hin q hq)
  refine ⟨⟨fun q hq => ?_, ?_, ?_, ?_⟩, hs', hsp⟩
  · simp only [List.mem_append, List.mem_cons] at hq
    rcases hq with hq | rfl | rfl | hq
    · exact hsp.inUse (hrest q (List.mem_append_left _ hq)) (hin q (List.mem_append_left _ hq))
    · exact hu
    · exact hsp.inUse hpb hp
    · exact hsp.inUse (hrest q (List.mem_append_right _ hq)) (hin q (List.mem_append_right _ hq))
  · rw [List.append_cons, List.nodup_middle, List.nodup_cons, ← List.append_cons]
    exact ⟨hnot, hnodup⟩
  · refine h.linked.insert (fun q hq => nodeNext_spares hsp (hrest q hq) (hin q hq)) hbnext ?_
      hp.ne_zero
    exact (nodeNext_spares hsp hpb hp).trans hnext
  · have hsplit : as.length + 1 = ((as ++ [b]).map (nodeData s)).length := by simp
    have hxs : xs = (as ++ [b]).map (nodeData s) ++ cs.map (nodeData s) := by simp [← h.data]
    rw [hxs, hsplit, List.take_left, List.drop_left]
    simp only [List.map_append, List.map_cons, List.map_nil, hbdata, nodeData_spares hsp hpb hp,
      List.append_assoc, List.cons_append, List.nil_append]
    rw [List.map_congr_left fun q hq => hdata q (List.mem_append_left cs hq),
      List.map_congr_left fun q hq => hdata q (List.mem_append_right as hq)]

/-- A place of a list, with what is in front of it and behind it. -/
theorem exists_split {i : ℕ} (hi : i < ps.length) : ∃ as b cs, ps = as ++ b :: cs ∧ as.length = i :=
  ⟨ps.take i, ps[i], ps.drop (i + 1), by simp, by simp; omega⟩

/-- `list_insert_at` behind a node. -/
theorem IsList.insertAfter {i : ℕ} (h : IsList s l (as ++ b :: cs) xs) (hs : Healthy s)
    (hd : d < 2 ^ 64) (hi : i < xs.length) (hlen : as.length + 1 = i) :
    Ensures (listInsertAt l i d) s
      (fun _ s' => (∃ ps, IsList s' l ps (xs.take i ++ d :: xs.drop i)) ∧ Healthy s')
      (fun s' => s'.pmm.pmmAlloc = none) := by
  have hprev : listGetNodeAt s l (i - 1) = b := by simp [h.getNodeAt, ← hlen]
  have hb : InUse s b 16 := h.chain.nodes b (by simp)
  have hlb : l ∉ ({b} : Set ℕ) := fun heq => h.notMem (by simp [Set.mem_singleton_iff.1 heq])
  have hend : i ≠ listCount s l := by
    rw [h.count_eq]
    omega
  have hzero : i ≠ 0 := by omega
  refine ensures_read_bind ?_
  rw [if_neg hend, if_neg hzero]
  refine ensures_read_bind ?_
  rw [hprev, if_neg hb.ne_zero]
  refine ensures_read_bind (ensures_bind ?_)
  refine (newNode_spec hs hd (nodeNext_lt s b)).imp fun p s1 hp => ?_
  obtain ⟨hp, hdata, hnext⟩ := hp
  refine ensures_modify_bind (ensures_modify ?_)
  obtain ⟨hlp, hnot⟩ := h.ne_of_obtained hp
  have h1 : IsList s1 l (as ++ b :: cs) xs := h.spares hp.spares fun q _ => Set.notMem_empty q
  obtain ⟨hchain, hs2, hsp2⟩ := h1.chain.insert hp.healthy hp.block hnot
    (hnext.trans (nodeNext_spares hp.spares (Set.notMem_empty b) hb).symm)
  have hhead := listHead_spares hsp2 hlb h1.header
  have hcount := listCount_spares hsp2 hlb h1.header
  have hnot' : l ∉ as ++ b :: p :: cs := by
    have hl := h.notMem
    simp only [List.mem_append, List.mem_cons, not_or] at hl ⊢
    exact ⟨hl.1, hl.2.1, hlp, hl.2.2⟩
  have hmore : (as ++ b :: p :: cs).length = (as ++ b :: cs).length + 1 := by
    simp only [List.length_append, List.length_cons]
    omega
  rw [hdata, hlen, ← hhead] at hchain
  obtain ⟨hlist, hs3, -⟩ := hchain.setCount hs2 (hsp2.inUse hlb h1.header) hnot'
  rw [hcount, h1.count, ← hmore]
  exact ⟨⟨_, hlist⟩, hs3⟩

/-- **`list_insert_at` before the end** inserts the element there. -/
theorem IsList.insertAt {i : ℕ} (h : IsList s l ps xs) (hs : Healthy s) (hd : d < 2 ^ 64)
    (hi : i < xs.length) : Ensures (listInsertAt l i d) s
      (fun _ s' => (∃ ps', IsList s' l ps' (xs.take i ++ d :: xs.drop i)) ∧ Healthy s')
      (fun s' => s'.pmm.pmmAlloc = none) := by
  have hend : i ≠ listCount s l := by
    rw [h.count_eq]
    omega
  by_cases hzero : i = 0
  · refine ensures_read_bind ?_
    rw [if_neg hend, if_pos hzero]
    refine (h.push hs hd).imp fun _ s' h' => ?_
    obtain ⟨p, hlist, hs', -⟩ := h'
    rw [hzero]
    exact ⟨⟨p :: ps, hlist⟩, hs'⟩
  · have hlt : i - 1 < ps.length := by
      rw [← h.length_eq]
      omega
    obtain ⟨as, b, cs, rfl, hlen⟩ := exists_split hlt
    exact h.insertAfter hs hd hi (by omega)

/-- What a list can be told to insert: an element at a place, or at the end. -/
inductive Insertion
  | insertAt (i : ℕ)
  | append

/-- The call. -/
def Insertion.call (list data : ℕ) : Insertion → Prog Mem Unit
  | .insertAt i => listInsertAt list i data
  | .append => listAppend list data

/-- The place, in a list of `n` elements. -/
def Insertion.place (n : ℕ) : Insertion → ℕ
  | .insertAt i => i
  | .append => n

/-- **The call inserts `d` in its place**, unless the machine stops for the lack of a frame. -/
def Inserts (s : Mem) (l : ℕ) (xs : List ℕ) (op : Insertion) (d : ℕ) : Prop :=
  Ensures (op.call l d) s
    (fun _ s' => (∃ ps, IsList s' l ps
        (xs.take (op.place xs.length) ++ d :: xs.drop (op.place xs.length))) ∧
      listCount s' l = xs.length + 1)
    (fun s' => s'.pmm.pmmAlloc = none)

/-- A call that leaves everything as it is does not insert. -/
theorem not_inserts {op : Insertion} (h : IsList s l ps xs) (hop : op.call l d s = .done () s) :
    ¬Inserts s l xs op d := fun hins => by
  have hcount := (Ensures.apply hins hop).2
  rw [h.count_eq] at hcount
  omega

/-- **Insertion works exactly before the end**: `list_insert_at` at the end and `list_append` do
nothing. -/
theorem inserts_iff (hs : Healthy s) (h : IsList s l ps xs) (hd : d < 2 ^ 64) (op : Insertion)
    (hplace : op.place xs.length ≤ xs.length) :
    Inserts s l xs op d ↔ ∃ i < xs.length, op = .insertAt i := by
  cases op with
  | append =>
    refine iff_of_false (not_inserts h rfl) ?_
    rintro ⟨i, -, heq⟩
    cases heq
  | insertAt i =>
    by_cases hi : i < xs.length
    · refine iff_of_true ?_ ⟨i, hi, rfl⟩
      refine (h.insertAt hs hd hi).imp fun _ s' h' => ?_
      obtain ⟨⟨ps', hlist⟩, -⟩ := h'
      refine ⟨⟨ps', hlist⟩, ?_⟩
      rw [hlist.count_eq, List.length_append, List.length_cons, List.length_take, List.length_drop]
      omega
    · obtain rfl : i = xs.length := le_antisymm hplace (not_lt.1 hi)
      refine iff_of_false (not_inserts h ?_) ?_
      · simp [Insertion.call, listInsertAt, h.count_eq, listAppend]
      · rintro ⟨i, hi', heq⟩
        obtain rfl := Insertion.insertAt.inj heq
        exact hi hi'

/-- A list of one element, on a heap of one page. -/
theorem exists_isList : ∃ s l ps, Healthy s ∧ IsList s l ps [7] := by
  have hdone : Ensures (do
      heapInit
      let l ← initList
      listPush l 7) sixFrames (fun _ _ => True) (fun _ => False) := by decide +kernel
  obtain ⟨u, s2, hrun, -⟩ := hdone.done
  obtain ⟨v, s0, hinit, hrun⟩ := done_of_bind hrun
  obtain ⟨l, s1, hlist, hpush⟩ := done_of_bind hrun
  have hs0 : Healthy s0 := (heapInit_healthy (by decide +kernel)).apply hinit
  obtain ⟨h1, hs1⟩ := (initList_spec hs0).apply hlist
  obtain ⟨p, h2, hs2, -⟩ := (h1.push hs1.healthy (by decide)).apply hpush
  exact ⟨s2, l, [p], hs2, h2⟩

/-- In front of the one element, and not behind it. -/
theorem inserts_iff_front : ∃ s l ps, Healthy s ∧ IsList s l ps [7] ∧
    Inserts s l [7] (.insertAt 0) 8 ∧ ¬Inserts s l [7] (.insertAt 1) 8 ∧
    ¬Inserts s l [7] .append 8 := by
  obtain ⟨s, l, ps, hs, h⟩ := exists_isList
  have hd : 8 < 2 ^ 64 := by decide
  refine ⟨s, l, ps, hs, h, (inserts_iff hs h hd _ (by decide)).2 ⟨0, by decide, rfl⟩, ?_, ?_⟩
  · rw [inserts_iff hs h hd _ (by decide)]
    rintro ⟨i, hi, heq⟩
    obtain rfl := Insertion.insertAt.inj heq
    exact absurd hi (by decide)
  · rw [inserts_iff hs h hd _ (by decide)]
    rintro ⟨i, -, heq⟩
    cases heq

/-- **Nothing is appended**: a new list is empty after `list_insert_at` at 0 and `list_append`. -/
theorem append_does_nothing : Ensures (do
        heapInit
        let l ← initList
        listInsertAt l 0 8
        listAppend l 8
        pure l) sixFrames
      (fun l s => listCount s l = 0 ∧ listHead s l = 0 ∧ listGetAt s l 0 = 0) (fun _ => False) := by
  decide +kernel

end Hvos.Data
