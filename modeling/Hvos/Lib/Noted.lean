import Hvos.Lib.Prog

/-!
# Lib/Noted — programs that note what they touch

`Noted σ τ α` is a program over `σ` together with the list of events `τ` that it notes on its way.
Without its notes it is a program (`Noted.run`); what it notes does not change what it does.
`AllNotes P m s` says that every event noted from `s` on satisfies `P`, and the rules below follow
the text of the program.
-/

namespace Hvos

variable {σ τ α β ρ : Type}

/-- A program that notes events. -/
def Noted (σ τ α : Type) := σ → List τ × Outcome σ α

namespace Noted

/-- The program without its notes. -/
def run (m : Noted σ τ α) : Prog σ α := fun s => (m s).2

/-- What is noted, to the end of the program or to where the machine halts. -/
def notes (m : Noted σ τ α) (s : σ) : List τ := (m s).1

/-- Return. -/
protected def pure (a : α) : Noted σ τ α := fun s => ([], .done a s)

/-- Sequence, of the notes as well. -/
protected def bind (m : Noted σ τ α) (f : α → Noted σ τ β) : Noted σ τ β := fun s =>
  match m s with
  | (ts, .done a s') => (ts ++ (f a s').1, (f a s').2)
  | (ts, .halt s') => (ts, .halt s')

instance : Monad (Noted σ τ) where
  pure := Noted.pure
  bind := Noted.bind

/-- A program that notes nothing. -/
def lift (m : Prog σ α) : Noted σ τ α := fun s => ([], m s)

/-- Note events. -/
def note (ts : List τ) : Noted σ τ Unit := fun s => (ts, .done () s)

/-- A loop over `i, …, i + n - 1` whose body may return from the function around it. -/
def forFrom (body : ℕ → Noted σ τ (Option ρ)) : ℕ → ℕ → Noted σ τ (Option ρ)
  | _, 0 => pure none
  | i, n + 1 => do
    match ← body i with
    | some r => pure (some r)
    | none => forFrom body (i + 1) n

/-- `for (i = 0; i < n; i++)`. -/
def forRange (n : ℕ) (body : ℕ → Noted σ τ (Option ρ)) : Noted σ τ (Option ρ) := forFrom body 0 n

/-! ## Without the notes -/

section Run

variable (m : Noted σ τ α) (f : α → Noted σ τ β)

@[simp] theorem run_pure (a : α) : (pure a : Noted σ τ α).run = pure a := rfl

@[simp] theorem run_lift (m : Prog σ α) : (lift m : Noted σ τ α).run = m := rfl

@[simp] theorem run_note (ts : List τ) : (note ts : Noted σ τ Unit).run = pure () := rfl

@[simp] theorem run_bind : (m >>= f).run = m.run >>= fun a => (f a).run := by
  funext s
  show (Noted.bind m f s).2 = _
  rw [Prog.bind_apply, Noted.bind, run]
  rcases m s with ⟨ts, a | s'⟩ <;> rfl

@[simp] theorem run_ite (p : Prop) [Decidable p] (m' : Noted σ τ α) :
    (if p then m else m').run = if p then m.run else m'.run := by
  split_ifs <;> rfl

theorem run_forFrom (body : ℕ → Noted σ τ (Option ρ)) (i n : ℕ) :
    (forFrom body i n).run = Prog.forFrom (fun i => (body i).run) i n := by
  induction n generalizing i with
  | zero => rfl
  | succ n ih =>
    rw [forFrom, Prog.forFrom, run_bind]
    congr 1
    funext r
    cases r with
    | none => exact ih (i + 1)
    | some r => rfl

theorem run_forRange (body : ℕ → Noted σ τ (Option ρ)) (n : ℕ) :
    (forRange n body).run = Prog.forRange n fun i => (body i).run :=
  run_forFrom body 0 n

end Run

/-! ## What is noted -/

/-- Every event noted from `s` on satisfies `P`. -/
def AllNotes (P : τ → Prop) (m : Noted σ τ α) (s : σ) : Prop := ∀ t ∈ m.notes s, P t

section AllNotes

variable {P Q : τ → Prop} {m m' : Noted σ τ α} {f : α → Noted σ τ β} {s : σ}

@[simp] theorem allNotes_pure (a : α) : AllNotes P (pure a : Noted σ τ α) s :=
  fun _ ht => nomatch ht

@[simp] theorem allNotes_lift (m : Prog σ α) : AllNotes P (lift m : Noted σ τ α) s :=
  fun _ ht => nomatch ht

@[simp] theorem allNotes_note (ts : List τ) :
    AllNotes P (note ts : Noted σ τ Unit) s ↔ ∀ t ∈ ts, P t := Iff.rfl

/-- **Sequence**: what comes after is noted where the first part returns. -/
theorem allNotes_bind : AllNotes P (m >>= f) s ↔
    AllNotes P m s ∧ ∀ a s', m.run s = .done a s' → AllNotes P (f a) s' := by
  show (∀ t ∈ (Noted.bind m f s).1, P t) ↔ _
  rw [Noted.bind, AllNotes, notes, run]
  rcases m s with ⟨ts, a | s'⟩
  · simp only [List.mem_append, or_imp, forall_and]
    refine and_congr_right fun _ => ⟨fun h b t heq => ?_, fun h => h _ _ rfl⟩
    cases heq
    exact h
  · exact (and_iff_left fun _ _ heq => nomatch heq).symm

/-- A program without notes in front, by how it ends. -/
theorem allNotes_lift_done {m : Prog σ α} {a : α} {s' : σ} (h : m s = .done a s') :
    AllNotes P (lift m >>= f) s ↔ AllNotes P (f a) s' := by
  rw [allNotes_bind, run_lift, h]
  refine ⟨fun hall => hall.2 a s' rfl, fun hf => ⟨allNotes_lift m, fun a' t heq => ?_⟩⟩
  cases heq
  exact hf

theorem allNotes_lift_halt {m : Prog σ α} {s' : σ} (h : m s = .halt s') :
    AllNotes P (lift m >>= f) s := by
  rw [allNotes_bind, run_lift, h]
  exact ⟨allNotes_lift m, fun _ _ heq => nomatch heq⟩

theorem allNotes_forFrom {body : ℕ → Noted σ τ (Option ρ)} {k n : ℕ} :
    AllNotes P (forFrom body k n) s ↔ ∀ i < n, ∀ t,
      Prog.forFrom (fun i => (body i).run) k i s = .done none t → AllNotes P (body (k + i)) t := by
  induction n generalizing k s with
  | zero => simp [forFrom]
  | succ n ih =>
    rw [forFrom, allNotes_bind]
    constructor
    · rintro ⟨hfirst, hrest⟩ i hi t ht
      cases i with
      | zero =>
        cases ht
        exact hfirst
      | succ i =>
        obtain ⟨r, s', hbody, ht⟩ := Prog.done_of_bind ht
        cases r with
        | some r => cases ht
        | none =>
          have hi := ih.1 (hrest none s' hbody) i (by omega) t ht
          rwa [Nat.add_assoc, Nat.add_comm 1] at hi
    · refine fun hall => ⟨hall 0 (Nat.succ_pos n) s rfl, fun r s' hbody => ?_⟩
      cases r with
      | some r => exact allNotes_pure _
      | none =>
        refine ih.2 fun i hi t ht => ?_
        rw [Nat.add_assoc, Nat.add_comm 1]
        refine hall (i + 1) (by omega) t ?_
        rw [Prog.forFrom, Prog.bind_apply, hbody]
        exact ht

/-- **Loop**: round `i` notes what it does from where the rounds before it have led. -/
theorem allNotes_forRange {body : ℕ → Noted σ τ (Option ρ)} {n : ℕ} :
    AllNotes P (forRange n body) s ↔ ∀ i < n, ∀ t,
      Prog.forRange i (fun i => (body i).run) s = .done none t → AllNotes P (body i) t := by
  simp only [forRange, allNotes_forFrom, Prog.forRange, Nat.zero_add]

end AllNotes

/-! ## What is noted where the program returns -/

/-- If the program returns, its result, its notes and its last state satisfy `Q`. -/
def Returns (m : Noted σ τ α) (s : σ) (Q : α → List τ → σ → Prop) : Prop :=
  ∀ a s', m.run s = .done a s' → Q a (m.notes s) s'

section Returns

variable {m : Noted σ τ α} {f : α → Noted σ τ β} {s : σ} {Q Q' : α → List τ → σ → Prop}
  {R : β → List τ → σ → Prop}

theorem returns_pure {a : α} (h : Q a [] s) : Returns (pure a : Noted σ τ α) s Q := by
  rintro _ _ ⟨⟩
  exact h

theorem returns_lift {m : Prog σ α} (h : Prog.Ensures m s (fun a s' => Q a [] s') fun _ => True) :
    Returns (lift m : Noted σ τ α) s Q := fun _ _ hrun => h.apply hrun

theorem returns_note {ts : List τ} {Q : Unit → List τ → σ → Prop} (h : Q () ts s) :
    Returns (note ts : Noted σ τ Unit) s Q := by
  rintro _ _ ⟨⟩
  exact h

/-- **Sequence**: the notes of the second part follow those of the first. -/
theorem returns_bind (h : Returns m s fun a ts s' => Returns (f a) s' fun b us => R b (ts ++ us)) :
    Returns (m >>= f) s R := by
  intro b s' hrun
  have hnotes : (m >>= f).notes s = (Noted.bind m f s).1 := rfl
  rw [run_bind] at hrun
  obtain ⟨a, t, hm, hf⟩ := Prog.done_of_bind hrun
  have hR := h a t hm b s' hf
  rw [run] at hm
  rw [hnotes, Noted.bind]
  rcases hpair : m s with ⟨ts, out⟩
  rw [hpair] at hm
  obtain rfl : out = .done a t := hm
  rw [notes, hpair] at hR
  exact hR

/-- A program without notes in front. -/
theorem returns_lift_bind {m : Prog σ α}
    (h : Prog.Ensures m s (fun a s' => Returns (f a) s' R) fun _ => True) :
    Returns (lift m >>= f) s R := returns_bind (returns_lift h)

theorem returns_note_bind {ts : List τ} {f : Unit → Noted σ τ β}
    (h : Returns (f ()) s fun b us => R b (ts ++ us)) : Returns (note ts >>= f) s R :=
  returns_bind (returns_note h)

theorem Returns.mono (h : Returns m s Q) (hQ : ∀ a ts s', Q a ts s' → Q' a ts s') :
    Returns m s Q' := fun a s' hrun => hQ _ _ _ (h a s' hrun)

/-- The state a program returns in is the one at its end. -/
theorem Returns.at_end (h : Returns m s Q) :
    Returns m s fun a ts s' => Q a ts s' ∧ (m.run s).state = s' :=
  fun a s' hrun => ⟨h a s' hrun, by rw [hrun]; rfl⟩

theorem Returns.bind (h : Returns m s Q)
    (hf : ∀ a ts s', Q a ts s' → Returns (f a) s' fun b us => R b (ts ++ us)) :
    Returns (m >>= f) s R := returns_bind (h.mono hf)

end Returns

/-! ## When the notes are right -/

/-- **The notes satisfy `P` exactly if `C`**, where the program returns; where it halts, they do. -/
def NotesIff (P : τ → Prop) (m : Noted σ τ α) (s : σ) (C : Prop) : Prop :=
  AllNotes P m s ↔ ∀ a s', m.run s = .done a s' → C

section NotesIff

variable {P : τ → Prop} {C C' : Prop} {m : Noted σ τ α} {f : α → Noted σ τ β} {s : σ}

theorem notesIff_pure {a : α} (hC : C) : NotesIff P (pure a : Noted σ τ α) s C :=
  iff_of_true (allNotes_pure a) fun _ _ _ => hC

theorem notesIff_lift_bind {m : Prog σ α}
    (h : Prog.Ensures m s (fun a s' => NotesIff P (f a) s' C) fun _ => True) :
    NotesIff P (lift m >>= f) s C := by
  rcases h.cases with ⟨a, s', hm, hf⟩ | ⟨s', hm, -⟩
  · rw [NotesIff, allNotes_lift_done hm, run_bind, run_lift, Prog.bind_apply, hm]
    exact hf
  · refine iff_of_true (allNotes_lift_halt hm) fun a t hrun => ?_
    rw [run_bind, run_lift, Prog.bind_apply, hm] at hrun
    cases hrun

/-- After the last note the program must return. -/
theorem notesIff_note_bind {ts : List τ} {f : Unit → Noted σ τ β} (hrest : AllNotes P (f ()) s)
    (hdone : Prog.Ensures (f ()).run s (fun _ _ => True) fun _ => False) :
    NotesIff P (note ts >>= f) s (∀ t ∈ ts, P t) := by
  obtain ⟨a, s', hrun, -⟩ := hdone.done
  rw [NotesIff, allNotes_bind, allNotes_note]
  refine ⟨fun h _ _ _ => h.1, fun h => ⟨h a s' (by rw [run_bind]; exact hrun), ?_⟩⟩
  rintro - t ⟨⟩
  exact hrest

theorem NotesIff.congr (h : NotesIff P m s C) (hC : C ↔ C') : NotesIff P m s C' := by
  rwa [NotesIff, ← hC]

end NotesIff

/-! ## Reading -/

/-- A program that returns a value and notes events with `P`, and does nothing else. -/
structure Reads (P : τ → Prop) (m : Noted σ τ α) (a : α) : Prop where
  run : m.run = pure a
  notes : ∀ s, AllNotes P m s

section Reads

variable {P : τ → Prop} {m : Noted σ τ α} {f : α → Noted σ τ β} {a : α} {b : β}

theorem Reads.pure (a : α) : Reads P (pure a : Noted σ τ α) a := ⟨rfl, fun _ => allNotes_pure a⟩

theorem Reads.bind (h : Reads P m a) (hf : Reads P (f a) b) : Reads P (m >>= f) b where
  run := by
    rw [run_bind, h.run]
    exact hf.run
  notes s := by
    refine allNotes_bind.2 ⟨h.notes s, fun a' s' hrun => ?_⟩
    rw [h.run] at hrun
    cases hrun
    exact hf.notes s

/-- The same program, and the same judgement on its notes. -/
structure Agree (P : τ → Prop) (m m' : Noted σ τ α) : Prop where
  run : m.run = m'.run
  notes : ∀ s, AllNotes P m s ↔ AllNotes P m' s

theorem Agree.refl (m : Noted σ τ α) : Agree P m m := ⟨rfl, fun _ => Iff.rfl⟩

theorem Agree.trans {m' m'' : Noted σ τ α} (h : Agree P m m') (h' : Agree P m' m'') :
    Agree P m m'' :=
  ⟨h.run.trans h'.run, fun s => (h.notes s).trans (h'.notes s)⟩

/-- **After a read, only the rest matters.** -/
theorem Reads.agree (h : Reads P m a) : Agree P (m >>= f) (f a) where
  run := by
    rw [run_bind, h.run]
    rfl
  notes s := by
    rw [allNotes_bind, h.run]
    refine ⟨fun hall => hall.2 a s rfl, fun hrest => ⟨h.notes s, fun a' s' heq => ?_⟩⟩
    cases heq
    exact hrest

end Reads

end Noted

end Hvos
