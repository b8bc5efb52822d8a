import Hvos.Fs.Chart
import Hvos.Fs.Splice
import Hvos.Syscall.Structure

/-!
# Syscall/Open — `sys_open` and `vfs_open` side by side

Both look a path up and make an open file of what they find.  `sys_open` first takes one `/` off the
path, which `vfs_lookup` then misses, and does not look whether it found a directory.
-/

namespace Hvos.Syscall

open Prog Fs Memory Function

/-! ## Strings in memory -/

/-- **The string `str` at `p`**, with its `NUL`. -/
structure StringAt (mem : ℕ → UInt8) (p : ℕ) (str : CString) : Prop where
  byte : ∀ k (hk : k < str.length), mem (wrap (p + k)) = str[k]
  nul : mem (wrap (p + str.length)) = 0
  ne_zero : 0 ∉ str

namespace StringAt

variable {mem : ℕ → UInt8} {p : ℕ} {str rest : CString} {c : UInt8}

theorem byte_ne_zero (h : StringAt mem p str) {k : ℕ} (hk : k < str.length) :
    mem (wrap (p + k)) ≠ 0 := by
  rw [h.byte k hk]
  exact fun hz => h.ne_zero (hz ▸ List.getElem_mem hk)

/-- There is no room for a longer one. -/
theorem length_lt (h : StringAt mem p str) : str.length < 2 ^ 64 := by
  by_contra hge
  have hbefore := h.byte_ne_zero (k := str.length - 2 ^ 64) (by omega)
  have hsame : wrap (p + (str.length - 2 ^ 64)) = wrap (p + str.length) := by
    unfold wrap
    omega
  rw [hsame] at hbefore
  exact hbefore h.nul

theorem strlenFrom_eq (h : StringAt mem p str) {n k : ℕ} (hk : k ≤ str.length)
    (hn : str.length < k + n) : strlenFrom mem p n k = some str.length := by
  induction n generalizing k with
  | zero => omega
  | succ n ih =>
    rw [strlenFrom]
    rcases Nat.eq_or_lt_of_le hk with rfl | hlt
    · rw [if_pos h.nul]
    · rw [if_neg (h.byte_ne_zero hlt)]
      exact ih hlt (by omega)

/-- **It is what `loadString` finds.** -/
theorem loadString {s : Sys} (h : StringAt s.mem p str) {H : Sys → Prop} : Ensures (loadString p) s
      (fun r s' => r = str ∧ s'.fs = s.fs ∧ s'.fileTable = s.fileTable ∧ s'.pid = s.pid) H := by
  unfold Syscall.loadString
  refine ensures_read_bind (ensures_modify_bind ?_)
  have hlen := h.length_lt
  rw [h.strlenFrom_eq (Nat.zero_le _) (by omega)]
  refine ensures_pure ⟨List.ext_getElem (by simp) fun k hk hk' => ?_, rfl, rfl, rfl⟩
  rw [List.getElem_map, List.getElem_range]
  exact h.byte k hk'

/-- The string one byte further. -/
theorem tail (h : StringAt mem p (c :: rest)) : StringAt mem (wrap (p + 1)) rest := by
  have hnext : ∀ k, wrap (wrap (p + 1) + k) = wrap (p + (k + 1)) := by
    intro k
    unfold wrap
    omega
  refine ⟨fun k hk => ?_, ?_, fun hz => h.ne_zero (List.mem_cons_of_mem c hz)⟩
  · rw [hnext]
    exact h.byte (k + 1) (by simpa using hk)
  · rw [hnext]
    exact h.nul

theorem head (h : StringAt mem p (c :: rest)) : mem (wrap (p + 0)) = c :=
  h.byte 0 (by simp)

end StringAt

/-! ## The two calls -/

/-- **The two agree**: a descriptor where there is a file, for the same dentry; otherwise an error
and the file tables as they were. -/
structure OpensAlike (s : Sys) (fd : ℤ) (s' : Sys) (filp : Ptr) (fs' : FsState) : Prop where
  both : 0 ≤ fd ↔ filp ≠ 0
  dentry : 0 ≤ fd → ∃ f g, s'.fs.heap.get (s'.fileTable s.pid fd.toNat) = some (.handle f) ∧
    fs'.heap.get filp = some (.handle g) ∧ f.fDentry = g.fDentry
  unchanged : fd < 0 → s'.fileTable = s.fileTable

/-- **When they do**: a second `/` and no directory at the end, or no second `/` and no file. -/
def AlikeOn (N : Nodes) (path : CString) : Prop :=
  path.tail.head? = some slash ∧ (∀ n, N.lookup (some path) = some n → n.body ≠ .dir) ∨
    path.tail.head? ≠ some slash ∧ ∀ n, N.lookup (some path) = some n → n.body = .dir

section Open

variable {K : Kmalloc} {N : Nodes} {s : Sys} {p : ℕ} {rest : CString}

/-- **`sys_open`** with a free slot: it opens what the rest of the path leads to. -/
theorem sysOpen_spec (h : Holds N s.fs) (hp : p ≠ 0) (hpath : StringAt s.mem p (slash :: rest))
    (hslot : ¬TableFull s) (flags : UInt32) : Ensures (sysOpen K p flags) s
      (fun r s' =>
        (∃ n, N.lookup (some rest) = some n ∧ 0 ≤ r ∧
          ∃ f, s'.fs.heap.get (s'.fileTable s.pid r.toNat) = some (.handle f) ∧
            f.fDentry = n.dentry) ∨
        N.lookup (some rest) = none ∧ r < 0 ∧ s'.fileTable = s.fileTable)
      (fun t => Refused K t.fs) := by
  have hroot : s.fs.rootDentry ≠ 0 := by
    obtain ⟨r, hr, hmem, -⟩ := h.wf.rooted.exists_root
    have hptr := h.root
    rw [hr, Option.map_some] at hptr
    exact Option.some.inj hptr ▸ h.wf.ptr_ne_zero hmem r.dentry_mem
  unfold sysOpen
  refine ensures_read_bind ?_
  rw [if_neg (not_or.2 ⟨hroot, hp⟩)]
  refine ensures_bind (ensures_modify_bind (ensures_read (ensures_read_bind ?_)))
  dsimp only
  rw [if_pos hpath.head]
  cases hfd : (List.range maxFilesPerProcess).find? fun i => s.fileTable s.pid i = 0 with
  | none =>
    refine absurd (fun fd hlt hz => ?_) hslot
    exact absurd hz (by simpa using List.find?_eq_none.1 hfd fd (List.mem_range.2 hlt))
  | some fd =>
    dsimp only
    refine Ensures.bind (StringAt.loadString (s := { s with touched := s.touched ++ bytesFrom p 1 })
      hpath.tail) ?_
    rintro str s1 ⟨hstr, hfs, htable, hpid⟩
    rw [hstr]
    have h1 : Holds N s1.fs := hfs ▸ h
    refine ensures_bind (ensures_onFs ((vfsLookup_spec (K := K) h1 (some rest)).imp ?_))
    rintro dentry fs2 ⟨hsame, rfl⟩
    rcases Nodes.ptrOf_cases h1.wf
      (fun n (hn : N.lookup (some rest) = some n) => Nodes.lookup_mem hn) with
      ⟨hnone, hz⟩ | ⟨n, hn, hl, hptr, hn0⟩
    · rw [hz, if_pos rfl]
      exact ensures_pure (.inr ⟨hnone, by decide, htable⟩)
    have hpl := (h1.same hsame).placed n hn
    rw [hptr, if_neg hn0]
    refine ensures_bind (ensures_onFs (ensures_dentryAt hpl.dentry ?_))
    rw [if_neg (h1.wf.ptr_ne_zero hn n.inode_mem)]
    refine ensures_bind (ensures_onFs (ensures_inodeAt hpl.inode (ensures_bind (ensures_onFs
      (ensures_kmalloc fun q _ _ => ensures_modify_bind (ensures_pure (.inl
        ⟨n, hl, Int.natCast_nonneg fd, ⟨n.dentry, 0, .ramfs, some flags⟩, ?_, rfl⟩)))))))
    dsimp only
    rw [hpid, Int.toNat_natCast, update_self, update_self]
    exact Heap.get_set_self ..

/-- **Where the two agree**, for every tree, every absolute path and every process with a free slot.
Each of the calls returns unless there is no memory. -/
theorem opensAlike_iff (h : Holds N s.fs) (hp : p ≠ 0) (hpath : StringAt s.mem p (slash :: rest))
    (hslot : ¬TableFull s) (flags : UInt32) : (∀ fd s' filp fs', sysOpen K p flags s = .done fd s' →
      vfsOpen K (some (slash :: rest)) s.fs = .done filp fs' →
        (OpensAlike s fd s' filp fs' ↔ AlikeOn N (slash :: rest))) ∧
      (∀ t, sysOpen K p flags s = .halt t → Refused K t.fs) ∧
      ∀ t, vfsOpen K (some (slash :: rest)) s.fs = .halt t → Refused K t := by
  have hsys := sysOpen_spec (K := K) h hp hpath hslot flags
  have hvfs := vfsOpen_spec (K := K) h (some (slash :: rest))
  unfold Ensures at hsys hvfs
  refine ⟨fun fd s' filp fs' hfd hfilp => ?_, fun t ht => ?_, fun t ht => ?_⟩
  · rw [hfd] at hsys
    rw [hfilp] at hvfs
    by_cases hslash : rest.head? = some slash
    · -- The same lookup twice.
      have hlookup := N.lookup_slash_cons hslash
      rcases hsys with ⟨n, hl, hge, f, hf, hd⟩ | ⟨hnone, hlt, htable⟩ <;>
        rcases hvfs with ⟨n', hl', hfile, hne, hget, -⟩ | ⟨hdir, hz, -⟩
      · obtain rfl := Option.some.inj (hl.symm.trans (hlookup ▸ hl'))
        refine iff_of_true ⟨iff_of_true hge hne, fun _ => ⟨f, _, hf, hget, hd⟩,
          fun hlt => absurd hge (not_le.2 hlt)⟩ (.inl ⟨hslash, fun m hm => ?_⟩)
        exact Option.mem_unique hl' hm ▸ hfile
      · rw [← hlookup] at hl
        refine iff_of_false (fun hsame => hsame.both.1 hge hz) ?_
        rintro (⟨-, hnot⟩ | ⟨hnot, -⟩)
        · exact hnot n hl (hdir n hl)
        · exact hnot hslash
      · rw [← hlookup, hl'] at hnone
        cases hnone
      · refine iff_of_true ⟨iff_of_false (not_le.2 hlt) (not_not.2 hz),
          fun hge => absurd hge (not_le.2 hlt), fun _ => htable⟩ (.inl ⟨hslash, fun m hm => ?_⟩)
        rw [hlookup, hnone] at hm
        cases hm
    · -- A lookup of a path that is not absolute any more.
      rcases hsys with ⟨n, hl, -⟩ | ⟨-, hlt, htable⟩
      · cases (N.lookup_relative hslash).symm.trans hl
      rcases hvfs with ⟨n', hl', hfile, hne, -, -⟩ | ⟨hdir, hz, -⟩
      · refine iff_of_false (fun hsame => not_le.2 hlt (hsame.both.2 hne)) ?_
        rintro (⟨hnot, -⟩ | ⟨-, hdirs⟩)
        · exact hslash hnot
        · exact hfile (hdirs n' hl')
      · exact iff_of_true ⟨iff_of_false (not_le.2 hlt) (not_not.2 hz),
          fun hge => absurd hge (not_le.2 hlt), fun _ => htable⟩ (.inr ⟨hslash, hdir⟩)
  · rwa [ht] at hsys
  · rwa [ht] at hvfs

end Open

/-- A new process, the file `/f`, and the strings `/f` and `//f` in its memory. -/
def oneFileSys : Sys :=
  { newProcess with
    fs := (vfsCreate .endless (some [slash, 102]) 0 newProcess.fs).state
    mem a := if a = 0x1000 ∨ a = 0x1001 then slash else if a = 0x1002 then 102 else 0 }

theorem oneFileSys_holds : ∃ N, Holds N oneFileSys.fs := by
  obtain ⟨N, hN⟩ := newProcess_onTree
  have hnew := planted_iff.1 ⟨N, hN.holds⟩
  have hrun : vfsCreate .endless (some [slash, 102]) 0 newProcess.fs = .done 0 oneFileSys.fs := rfl
  exact planted_iff.2 ((hnew.vfsCreate closed_true _ _).apply hrun)

/-- `//f` opens the file both ways. -/
theorem opensAlike_iff_slashes :
    ∃ fd s' filp fs', sysOpen .endless 0x1000 0 oneFileSys = .done fd s' ∧
      vfsOpen .endless (some [slash, slash, 102]) oneFileSys.fs = .done filp fs' ∧
      OpensAlike oneFileSys fd s' filp fs' := by
  obtain ⟨N, h⟩ := oneFileSys_holds
  have hpath : StringAt oneFileSys.mem 0x1000 [slash, slash, 102] := by
    refine ⟨fun k hk => ?_, by decide, by decide⟩
    match k, hk with
    | 0, _ | 1, _ | 2, _ => rfl
  have hfree : ¬TableFull oneFileSys := fun hfull => hfull 3 (by decide) rfl
  have hsys : sysOpen .endless 0x1000 0 oneFileSys = .done _ _ := rfl
  have hvfs : vfsOpen .endless (some [slash, slash, 102]) oneFileSys.fs = .done _ _ := rfl
  have hfile : ∀ n, N.lookup (some [slash, slash, 102]) = some n → n.body ≠ .dir := by
    have hspec := vfsOpen_spec (K := .endless) h (some [slash, slash, 102])
    unfold Ensures at hspec
    rw [hvfs] at hspec
    rcases hspec with ⟨n, hl, hfile, -⟩ | ⟨-, hz, -⟩
    · exact fun m hm => Option.mem_unique hl hm ▸ hfile
    · exact absurd hz (by decide)
  exact ⟨_, _, _, _, hsys, hvfs,
    ((opensAlike_iff h (by decide) hpath hfree 0).1 _ _ _ _ hsys hvfs).2 (.inl ⟨rfl, hfile⟩)⟩

/-- **`/f` does not**: `sys_open` looks for `f`. -/
theorem sysOpen_misses :
    (∃ N, Holds N oneFileSys.fs) ∧ StringAt oneFileSys.mem 0x1001 [slash, 102] ∧
      ¬TableFull oneFileSys ∧
      ∃ fd s' filp fs', sysOpen .endless 0x1001 0 oneFileSys = .done fd s' ∧
        vfsOpen .endless (some [slash, 102]) oneFileSys.fs = .done filp fs' ∧
        ¬OpensAlike oneFileSys fd s' filp fs' := by
  refine ⟨oneFileSys_holds, ⟨fun k hk => ?_, by decide, by decide⟩,
    fun hfull => hfull 3 (by decide) rfl, _, _, _, _, rfl, rfl, fun hsame => ?_⟩
  · match k, hk with
    | 0, _ | 1, _ => rfl
  · exact absurd (hsame.both.2 (by decide)) (by decide)

end Hvos.Syscall
