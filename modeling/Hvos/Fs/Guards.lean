import Hvos.Fs.Shape

/-!
# Fs/Guards — what hangs on the tree a call finds

Some properties of the heap survive a `vfs_mkdir` or a `vfs_create` exactly if the tree before the
call meets a condition, and survive every other call.  An archive is then under the condition member
by member, and a run call by call (`Guarded.of_run`).
-/

namespace Hvos.Fs

open Prog

/-- The tree of a state, whichever way it is written down. -/
def OnTrees (C : Nodes → Prop) (s : FsState) : Prop := ∀ N, Holds N s → C N

/-- What is asked of the tree before `vfs_mkdir`, and before `vfs_create`. -/
structure Guards where
  mkdir : Nodes → Option CString → Prop
  create : Nodes → Option CString → Prop

namespace Guards

variable (G : Guards)

/-- Before one member of an archive. -/
def OnMember (tar : TarBytes) (offset : ℕ) (s : FsState) : Prop :=
  if tar.typeflag offset = 53 then
    OnTrees (G.mkdir · (some (stripSlash (tar.absolutePath offset)))) s
  else if tar.typeflag offset = 48 ∨ tar.typeflag offset = 0 then
    OnTrees (G.create · (some (tar.absolutePath offset))) s
  else True

/-- Before each member of an archive, where the ones before it have been imported. -/
def OnArchive (K : Kmalloc) (tar : TarBytes) (tarSize : ℕ) : ℕ → ℕ → FsState → Prop
  | 0, _, _ => True
  | n + 1, offset, s =>
    offset + 512 > tarSize ∨ tar.name offset = [] ∨ tar.isUstar offset = false ∨
      G.OnMember tar offset s ∧ ∀ s', importMember K tar offset s = .done () s' →
        OnArchive K tar tarSize n (nextHeader tar offset) s'

/-- Before a call. -/
def OnCall (K : Kmalloc) : Call → FsState → Prop
  | .mkdir path _ => OnTrees (G.mkdir · path)
  | .create path _ => OnTrees (G.create · path)
  | .lookup _ | .openFile _ => fun _ => True
  | .fromTar tar tarSize => G.OnArchive K tar tarSize (tarSize / 512) 0

end Guards

/-- **A property that hangs on the guards**, and on nothing else. -/
structure Guarded (K : Kmalloc) (G : Guards) (Q : FsState → Prop) : Prop where
  mkdir : ∀ {N s s' path mode r}, Holds N s → vfsMkdir K path mode s = .done r s' →
    (Q s' ↔ Q s ∧ G.mkdir N path)
  create : ∀ {N s s' path mode r}, Holds N s → vfsCreate K path mode s = .done r s' →
    (Q s' ↔ Q s ∧ G.create N path)
  fill : ∀ {N s s' path data n u}, Holds N s → n < 2 ^ 32 → fillFile K path data n s = .done u s' →
    (Q s' ↔ Q s)
  same : ∀ {N s s'}, Holds N s → Same s s' → (Q s' ↔ Q s)
  opened : ∀ {N s s'}, Holds N s → Holds N s' → Leaves s s' [] → (Q s' ↔ Q s)

section Guarded

variable {K : Kmalloc} {G : Guards} {Q : FsState → Prop} {s s' : FsState} {u : Unit}

theorem Planted.iff_onTrees (h : Planted s) {C : Nodes → Prop} {A B : Prop}
    (hC : ∀ N, Holds N s → (B ↔ A ∧ C N)) : B ↔ A ∧ OnTrees C s := by
  obtain ⟨N, hN⟩ := h
  exact ⟨fun hB => ⟨((hC N hN).1 hB).1, fun M hM => ((hC M hM).1 hB).2⟩,
    fun hAC => (hC N hN).2 ⟨hAC.1, hAC.2 N hN⟩⟩

variable (hQ : Guarded K G Q)

include hQ

theorem Guarded.importMember (h : Planted s) {tar : TarBytes} {offset : ℕ}
    (hrun : importMember K tar offset s = .done u s') : Q s' ↔ Q s ∧ G.OnMember tar offset s := by
  unfold Fs.importMember at hrun
  unfold Guards.OnMember
  split_ifs at hrun ⊢
  · obtain ⟨r, t, hmkdir, hpure⟩ := done_of_bind hrun
    cases hpure
    exact h.iff_onTrees fun N hN => hQ.mkdir hN hmkdir
  · obtain ⟨r, t, hcreate, hfill⟩ := done_of_bind hrun
    obtain ⟨M, hM, -⟩ := ((planted_iff.1 h).vfsCreate closed_true _ _).apply hcreate
    rw [hQ.fill hM (tar.fileSize_lt offset) hfill]
    exact h.iff_onTrees fun N hN => hQ.create hN hcreate
  · cases hrun
    exact (and_iff_left trivial).symm

/-- **Any archive**, by induction on the rounds of the loop. -/
theorem Guarded.importFrom {tar : TarBytes} {tarSize n offset : ℕ} (h : Planted s)
    (hrun : importFrom K tar tarSize n offset s = .done u s') :
    Q s' ↔ Q s ∧ G.OnArchive K tar tarSize n offset s := by
  induction n generalizing offset s with
  | zero =>
    cases hrun
    exact (and_iff_left trivial).symm
  | succ n ih =>
    rw [Fs.importFrom] at hrun
    split_ifs at hrun with hstop
    · cases hrun
      exact (and_iff_left (by rw [Guards.OnArchive]; tauto)).symm
    · obtain ⟨u, t, hmember, hrest⟩ := done_of_bind hrun
      have ht := ((planted_iff.1 h).importMember closed_true tar offset).apply hmember
      have hnext : (∀ s', Fs.importMember K tar offset s = .done () s' →
          G.OnArchive K tar tarSize n (nextHeader tar offset) s') ↔
            G.OnArchive K tar tarSize n (nextHeader tar offset) t := by
        refine ⟨fun hall => hall t hmember, fun hok s' hs' => ?_⟩
        cases hmember.symm.trans hs'
        exact hok
      rw [ih (planted_iff.2 ht) hrest, hQ.importMember h hmember, Guards.OnArchive, hnext]
      tauto

/-- One call. -/
theorem Guarded.callStep (h : Planted s) {c : Call} (hstep : callStep K c s = some s') :
    Q s' ↔ Q s ∧ G.OnCall K c s := by
  have hrun := done_of_callStep hstep
  cases c with
  | mkdir path mode =>
    obtain ⟨r, t, hmkdir, hpure⟩ := done_of_bind hrun
    cases hpure
    exact h.iff_onTrees fun N hN => hQ.mkdir hN hmkdir
  | create path mode =>
    obtain ⟨r, t, hcreate, hpure⟩ := done_of_bind hrun
    cases hpure
    exact h.iff_onTrees fun N hN => hQ.create hN hcreate
  | lookup path =>
    obtain ⟨N, hN⟩ := h
    obtain ⟨r, t, hlookup, hpure⟩ := done_of_bind hrun
    cases hpure
    rw [Guards.OnCall, and_true, hQ.same hN ((vfsLookup_spec hN path).apply hlookup).1]
  | openFile path =>
    obtain ⟨N, hN⟩ := h
    obtain ⟨r, t, hopen, hpure⟩ := done_of_bind hrun
    cases hpure
    rw [Guards.OnCall, and_true]
    rcases (vfsOpen_spec hN path).apply hopen with ⟨n, -, -, -, -, hleaves, h'⟩ | ⟨-, -, hs⟩
    · exact hQ.opened hN h' hleaves
    · exact hQ.same hN hs
  | fromTar tar tarSize => exact hQ.importFrom h hrun

/-- **A run from `ramfs_init` on** has the property at its end exactly if every call of it met its
guard. -/
theorem Guarded.of_run {s0 : FsState} {cs : List Call} (hinit : ramfsInit K .boot = .done () s0)
    (h0 : Q s0) (h : Run (Fs.callStep K) s0 cs s) :
    Q s ↔ ∀ cs1 c cs2 t, cs = cs1 ++ c :: cs2 → Run (Fs.callStep K) s0 cs1 t → G.OnCall K c t :=
  h.iff_forall (fun _ _ _ _ hrun hstep => hQ.callStep (planted_of_run hinit hrun) hstep) h0

end Guarded

end Hvos.Fs
