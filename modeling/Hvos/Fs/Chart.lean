import Hvos.Fs.Paths
import Hvos.Fs.Resolve

/-!
# Fs/Chart — where the nodes of a tree are

`At N n cs` says that the names on the way from the root to `n` are `cs`.  A walk always ends where
the normal form of its tokens says; where no two nodes are in one place, it also finds every node.
A `Charted` tree has exactly the places of a list, and stays charted as nodes are added.
-/

namespace Hvos.Fs

variable {N : Nodes} {n m q r : Node} {cs cs' : List CString}

/-- **The names from the root to a node.** -/
inductive At (N : Nodes) : Node → List CString → Prop
  | root {r : Node} (h : N.head? = some r) : At N r []
  | child {q n : Node} {cs : List CString} (hq : At N q cs) (hn : n ∈ N)
      (hparent : n.parent = q.dentry) : At N n (cs ++ [n.name])

theorem At.mem (h : At N n cs) : n ∈ N := by
  cases h with
  | root h => exact List.mem_of_mem_head? h
  | child _ hn _ => exact hn

theorem Wf.head_parent (h : Wf N) (hr : N.head? = some r) : r.parent = 0 := by
  obtain ⟨r', hr', -, hz, -⟩ := h.rooted.exists_root
  obtain rfl := Option.mem_unique hr hr'
  exact hz

theorem Wf.head_body (h : Wf N) (hr : N.head? = some r) : r.body = .dir := by
  obtain ⟨r', hr', -, -, hdir⟩ := h.rooted.exists_root
  obtain rfl := Option.mem_unique hr hr'
  exact hdir

/-- What is named as a parent is a directory. -/
theorem Wf.parent_body (h : Wf N) (hn : n ∈ N) (hq : q ∈ N) (hparent : n.parent = q.dentry) :
    q.body = .dir := by
  rcases h.rooted.exists_parent hn with ⟨-, hz⟩ | ⟨q', hq', hdir, heq⟩
  · exact absurd (hparent.symm.trans hz) (h.ptr_ne_zero hq q.dentry_mem)
  · rwa [h.dentry_inj hq hq' (hparent.symm.trans heq)]

/-- A node is in one place. -/
theorem At.unique (h : Wf N) (hn : At N n cs) (hn' : At N n cs') : cs = cs' := by
  induction hn generalizing cs' with
  | root hr =>
    cases hn' with
    | root => rfl
    | child hq _ hparent =>
      exact absurd (hparent.symm.trans (h.head_parent hr)) (h.ptr_ne_zero hq.mem (Node.dentry_mem _))
  | child hq _ hparent ih =>
    cases hn' with
    | root hr =>
      exact absurd (hparent.symm.trans (h.head_parent hr)) (h.ptr_ne_zero hq.mem (Node.dentry_mem _))
    | child hq' _ hparent' =>
      obtain rfl := h.dentry_inj hq.mem hq'.mem (hparent.symm.trans hparent')
      rw [ih hq']

/-! ## Walks -/

/-- One place up. -/
theorem At.above (h : Wf N) (hn : At N n cs) : At N (N.above n) cs.dropLast := by
  have hmem := Nodes.above_mem hn.mem
  have hup := h.above_dentry hn.mem
  cases hn with
  | root hr =>
    rw [if_neg (not_not.2 (h.head_parent hr))] at hup
    rw [h.dentry_inj hmem (List.mem_of_mem_head? hr) hup]
    exact .root hr
  | child hq hn hparent =>
    have hz : n.parent ≠ 0 := hparent ▸ h.ptr_ne_zero hq.mem (Node.dentry_mem _)
    rw [if_pos hz, hparent] at hup
    rw [h.dentry_inj hmem hq.mem hup, List.dropLast_concat]
    exact hq

/-- **A walk ends where its tokens say.** -/
theorem At.walk (h : Wf N) {toks : List CString} (hshort : ∀ t ∈ toks, t.length ≤ 31)
    (hn : At N n cs) (hw : N.walk toks n = some m) : At N m (toks.foldl normalStep cs) := by
  induction toks generalizing n cs with
  | nil =>
    cases hw
    exact hn
  | cons token rest ih =>
    have hrest : ∀ t ∈ rest, t.length ≤ 31 := fun t ht => hshort t (List.mem_cons_of_mem _ ht)
    have htake : token.take 31 = token := List.take_of_length_le (hshort token (by simp))
    rw [Nodes.walk, htake] at hw
    rw [List.foldl_cons, normalStep]
    split_ifs at hw ⊢
    · exact ih hrest hn hw
    · exact ih hrest (hn.above h) hw
    · split at hw
      · cases hw
      · obtain ⟨x, hx, hwx⟩ := Option.bind_eq_some_iff.1 hw
        obtain ⟨hmem, hparent, rfl⟩ := Nodes.child_mem hx
        exact ih hrest (hn.child hmem hparent) hwx

theorem Nodes.walk_append (N : Nodes) (a b : List CString) (n : Node) :
    N.walk (a ++ b) n = (N.walk a n).bind (N.walk b) := by
  induction a generalizing n with
  | nil => rfl
  | cons token a ih =>
    rw [List.cons_append, Nodes.walk, Nodes.walk]
    split_ifs
    · exact ih n
    · exact ih (N.above n)
    · cases n.body with
      | file => rfl
      | dir =>
        rw [Option.bind_assoc]
        exact Option.bind_congr fun x _ => ih x

/-- One `/` more in front of another changes nothing. -/
theorem Nodes.lookup_slash_cons (N : Nodes) {rest : CString} (h : rest.head? = some slash) :
    N.lookup (some (slash :: rest)) = N.lookup (some rest) := by
  simp only [Nodes.lookup, List.head?_cons, if_true, h, tokens_eq, components_slash_cons]

theorem Nodes.lookup_relative (N : Nodes) {rest : CString} (h : rest.head? ≠ some slash) :
    N.lookup (some rest) = none := if_neg h

/-- A component that is looked up as it is. -/
def Plain (c : CString) : Prop := c.length ≤ 31 ∧ c ≠ dot ∧ c ≠ dotdot

theorem Nodes.walk_plain {c : CString} (hc : Plain c) (hdir : q.body = .dir) :
    N.walk [c] q = N.child q c := by
  obtain ⟨hshort, hdot, hup⟩ := hc
  rw [Nodes.walk, if_neg hdot, if_neg hup, hdir, List.take_of_length_le hshort]
  exact Option.bind_fun_some _

/-! ## Charts -/

/-- **A tree with these places**, besides the root, and one node in each. -/
structure Charted (N : Nodes) (places : List (List CString)) : Prop where
  inj : ∀ {n m cs}, At N n cs → At N m cs → n = m
  found : ∀ cs ∈ places, ∃ n, At N n cs
  only : ∀ {n cs}, At N n cs → cs = [] ∨ cs ∈ places

variable {places : List (List CString)}

theorem Charted.child_eq (hc : Charted N places) (hq : At N q cs) (hn : n ∈ N)
    (hparent : n.parent = q.dentry) : N.child q n.name = some n := by
  cases hf : N.child q n.name with
  | none =>
    have := List.find?_eq_none.1 hf n (Nodes.mem_kids.2 ⟨hn, hparent⟩)
    simp at this
  | some m =>
    obtain ⟨hm, hmp, hname⟩ := Nodes.child_mem hf
    have hat := hq.child hm hmp
    rw [hname] at hat
    rw [hc.inj hat (hq.child hn hparent)]

/-- **A walk finds every node.** -/
theorem Charted.walk_eq (hc : Charted N places) (h : Wf N) (hr : N.head? = some r) (hn : At N n cs)
    (hplain : ∀ c ∈ cs, Plain c) : N.walk cs r = some n := by
  induction hn with
  | root hr' =>
    rw [Option.mem_unique hr hr']
    rfl
  | @child q n cs hq hn hparent ih =>
    have hdir := h.parent_body hn hq.mem hparent
    rw [Nodes.walk_append, ih fun c hc => hplain c (by simp [hc])]
    exact (Nodes.walk_plain (hplain _ (by simp)) hdir).trans (hc.child_eq hq hn hparent)

theorem Charted.root (h : Wf [r]) : Charted [r] [] := by
  have honly : ∀ {n cs}, At [r] n cs → n = r ∧ cs = [] := by
    intro n cs hn
    cases hn with
    | root hr => exact ⟨(Option.some.inj hr).symm, rfl⟩
    | child hq hn hparent =>
      obtain rfl := List.mem_singleton.1 hn
      exact absurd (hparent.symm.trans (h.head_parent rfl))
        (h.ptr_ne_zero hq.mem (Node.dentry_mem _))
  exact ⟨fun hn hm => (honly hn).1.trans (honly hm).1.symm, by simp, fun hn => .inl (honly hn).2⟩

/-- A directory has no more entries than the chart has places right below it. -/
theorem Charted.kids_le (hc : Charted N places) (h : Wf N) (hq : At N q cs) :
    (N.kids q.dentry).length ≤ (places.filter (·.dropLast = cs)).length := by
  have hat : ∀ n ∈ N.kids q.dentry, At N n (cs ++ [n.name]) := fun n hn =>
    hq.child (Nodes.mem_kids.1 hn).1 (Nodes.mem_kids.1 hn).2
  have hnodup : ((N.kids q.dentry).map fun n => cs ++ [n.name]).Nodup := by
    refine List.Nodup.map_on (fun n hn m hm heq => ?_) ((h.nodup_dentries.of_map _).filter _)
    exact hc.inj (hat n hn) (by rw [show cs ++ [n.name] = _ from heq]; exact hat m hm)
  have hsub : ((N.kids q.dentry).map fun n => cs ++ [n.name]) ⊆ places.filter (·.dropLast = cs) := by
    intro p hp
    obtain ⟨n, hn, rfl⟩ := List.mem_map.1 hp
    refine List.mem_filter.2 ⟨?_, by simp⟩
    exact (hc.only (hat n hn)).resolve_left (by simp)
  simpa using (hnodup.subperm hsub).length_le

/-! ### A new node -/

theorem At.append (h : At N n cs) (m : Node) : At (N ++ [m]) n cs := by
  induction h with
  | root hr => exact .root (by rw [List.head?_append, hr]; rfl)
  | child _ hn hparent ih => exact ih.child (List.mem_append_left _ hn) hparent

/-- A new node is in one new place, and moves no other. -/
theorem At.snoc_cases (h : Wf N) (h' : Wf (N ++ [m])) (hq : At N q cs') (hparent : m.parent = q.dentry)
    (hn : At (N ++ [m]) n cs) : At N n cs ∨ n = m ∧ cs = cs' ++ [m.name] := by
  have hfresh : ∀ {x}, x ∈ N → x.dentry ≠ m.dentry := by
    intro x hx heq
    have hnd := h'.nodup_dentries
    rw [List.map_append, List.nodup_append] at hnd
    exact hnd.2.2 _ (List.mem_map_of_mem hx) _ (by simp) heq
  induction hn with
  | root hr =>
    obtain ⟨r, hr', -⟩ := h.rooted.exists_root
    rw [List.head?_append, hr'] at hr
    cases hr
    exact .inl (.root hr')
  | @child p n cs hp hn hnp ih =>
    rcases ih with hold | ⟨rfl, rfl⟩
    · rcases List.mem_append.1 hn with hn | hn
      · exact .inl (hold.child hn hnp)
      · obtain rfl := List.mem_singleton.1 hn
        obtain rfl := h.dentry_inj hold.mem hq.mem (hnp.symm.trans hparent)
        exact .inr ⟨rfl, by rw [hold.unique h hq]⟩
    · -- Nobody names the new node as parent.
      exfalso
      rcases List.mem_append.1 hn with hn | hn
      · rcases h.rooted.exists_parent hn with ⟨-, hz⟩ | ⟨x, hx, -, heq⟩
        · exact h'.ptr_ne_zero hp.mem (Node.dentry_mem _) (hnp.symm.trans hz)
        · exact hfresh hx (heq.symm.trans hnp)
      · obtain rfl := List.mem_singleton.1 hn
        exact hfresh hq.mem (hparent.symm.trans hnp)

/-- **A chart with one more place.** -/
theorem Charted.snoc (hc : Charted N places) (h : Wf N) (h' : Wf (N ++ [m])) (hq : At N q cs)
    (hparent : m.parent = q.dentry) (hnew : cs ++ [m.name] ∉ places) :
    Charted (N ++ [m]) (places ++ [cs ++ [m.name]]) := by
  have hcases : ∀ {n cs'}, At (N ++ [m]) n cs' → At N n cs' ∨ n = m ∧ cs' = cs ++ [m.name] :=
    fun hn => At.snoc_cases h h' hq hparent hn
  have hfree : ∀ {n}, ¬At N n (cs ++ [m.name]) := fun hn =>
    (hc.only hn).elim (by simp) hnew
  refine ⟨fun {n x cs'} hn hx => ?_, fun cs' hcs' => ?_, fun {n cs'} hn => ?_⟩
  · rcases hcases hn with hn1 | ⟨hnm, hn1⟩ <;> rcases hcases hx with hx1 | ⟨hxm, hx1⟩
    · exact hc.inj hn1 hx1
    · exact absurd (hx1 ▸ hn1) hfree
    · exact absurd (hn1 ▸ hx1) hfree
    · exact hnm.trans hxm.symm
  · rcases List.mem_append.1 hcs' with hcs' | hcs'
    · obtain ⟨n, hn⟩ := hc.found cs' hcs'
      exact ⟨n, hn.append m⟩
    · obtain rfl := List.mem_singleton.1 hcs'
      exact ⟨m, (hq.append m).child (by simp) hparent⟩
  · rcases hcases hn with hn | ⟨-, rfl⟩
    · exact (hc.only hn).imp_right fun hmem => List.mem_append_left _ hmem
    · exact .inr (by simp)

end Hvos.Fs
