import Arbor.Proofs.Brackets
import Arbor.Proofs.Outcomes

namespace Arbor

variable {α : Type}

/-- The program `q` can stand where `p` does. -/
def Refines (p q : List (Instruction α)) : Prop :=
  ∀ o o', Outline.run o p = some o' →
    ∃ r, Outline.run o q = some r ∧ r.depth = o'.depth ∧ (o'.drawing = true → r.drawing = true)

namespace Outline

theorem next?_mono {o o' r : Outline} {i : Instruction α} (h : o.next? i = some o')
    (hdepth : r.depth = o.depth) (hdrawing : o.drawing = true → r.drawing = true) :
    ∃ r', r.next? i = some r' ∧ r'.depth = o'.depth ∧ (o'.drawing = true → r'.drawing = true) := by
  obtain ⟨hv, hd, hdraw⟩ := next?_eq_some h
  cases hr : r.next? i with
  | none =>
      rcases next?_eq_none hr with ⟨rfl, hzero⟩ | ⟨rfl, hfalse⟩
      · rw [hdepth] at hzero
        simp [next?, hzero] at h
      · rw [hdrawing (hv rfl)] at hfalse
        cases hfalse
  | some r' =>
      obtain ⟨-, hd', hdraw'⟩ := next?_eq_some hr
      refine ⟨r', rfl, by omega, fun ho => ?_⟩
      exact hdraw'.mpr ((hdraw.mp ho).imp hdrawing id)

theorem run_mono {o o' r : Outline} {p : List (Instruction α)} (h : o.run p = some o')
    (hdepth : r.depth = o.depth) (hdrawing : o.drawing = true → r.drawing = true) :
    ∃ r', r.run p = some r' ∧ r'.depth = o'.depth ∧ (o'.drawing = true → r'.drawing = true) := by
  induction p generalizing o r with
  | nil =>
      cases h
      exact ⟨r, rfl, hdepth, hdrawing⟩
  | cons i is ih =>
      obtain ⟨m, hm, hrun⟩ := Option.bind_eq_some_iff.mp h
      obtain ⟨n, hn, hdepth', hdrawing'⟩ := next?_mono hm hdepth hdrawing
      obtain ⟨r', hr', hend⟩ := ih hrun hdepth' hdrawing'
      exact ⟨r', Option.bind_eq_some_iff.mpr ⟨n, hn, hr'⟩, hend⟩

end Outline

namespace Refines

variable {p q p' q' : List (Instruction α)}

theorem append (h : Refines p q) (h' : Refines p' q') : Refines (p ++ p') (q ++ q') := by
  intro o o' ho
  rw [Outline.run_append] at ho
  obtain ⟨m, hm, hrun⟩ := Option.bind_eq_some_iff.mp ho
  obtain ⟨n, hn, hdepth, hdrawing⟩ := h o m hm
  obtain ⟨r, hr, hdepth', hdrawing'⟩ := h' m o' hrun
  obtain ⟨r', hr', hdepth'', hdrawing''⟩ := Outline.run_mono hr hdepth hdrawing
  refine ⟨r', ?_, hdepth''.trans hdepth', hdrawing'' ∘ hdrawing'⟩
  rw [Outline.run_append, hn]
  exact hr'

theorem wellFormed (h : Refines p q) (hp : WellFormed p) : WellFormed q := by
  obtain ⟨drawing, hrun⟩ := (wellFormed_iff p).mp hp
  obtain ⟨⟨depth, drawing'⟩, hr, hdepth, -⟩ := h _ _ hrun
  cases hdepth
  exact (wellFormed_iff q).mpr ⟨drawing', hr⟩

theorem of_next? {i j : Instruction α} (h : ∀ o : Outline, o.next? j = o.next? i) :
    Refines [i] [j] := by
  intro o o' ho
  refine ⟨o', ?_, rfl, id⟩
  rw [← ho, Outline.run, Outline.run, h]

end Refines

namespace WellFormed

variable {p q : List (Instruction α)}

theorem refines (h : WellFormed p) : Refines [] p := by
  intro o o' ho
  cases ho
  have hadmits : o.Admits p := by
    constructor
    · intro q hq
      exact Nat.le_trans (h.opened q hq) (Nat.le_add_left _ _)
    · exact fun before after he => .inr (h.drawn before after he)
  obtain ⟨drawing, hrun⟩ := hadmits.run h.closed
  exact ⟨_, hrun, rfl, Outline.drawing_run hrun⟩

theorem nil : WellFormed ([] : List (Instruction α)) := (wellFormed_iff _).mpr ⟨false, rfl⟩

theorem singleton {i : Instruction α} (h : ∀ o : Outline, o.next? i = some o) :
    WellFormed [i] :=
  (wellFormed_iff _).mpr ⟨false, by rw [Outline.run, h]; rfl⟩

theorem append (hp : WellFormed p) (hq : WellFormed q) : WellFormed (p ++ q) := by
  have h := Refines.append hp.refines hq.refines
  exact h.wellFormed nil

theorem enclose (h : WellFormed p) : WellFormed (.push :: p ++ [.pop]) := by
  obtain ⟨r, hr, hdepth, -⟩ := h.refines ⟨1, false⟩ _ rfl
  refine (wellFormed_iff _).mpr ⟨r.drawing, ?_⟩
  change (Outline.run ⟨1, false⟩ (p ++ [.pop])) = _
  rw [Outline.run_append, hr]
  simp [Outline.run, Outline.next?, hdepth]

end WellFormed

variable {δ : Type → Type}

namespace Word

@[simp]
theorem program_append (v w : Word δ α) : (v ++ w).program = v.program ++ w.program :=
  List.filterMap_append

@[simp]
theorem program_op (i : Instruction α) : (op i : Word δ α).program = [i] := rfl

@[simp]
theorem program_grow (p : δ α) : (grow p).program = [] := rfl

@[simp]
theorem program_branch (w : Word δ α) : (branch w).program = .push :: w.program ++ [.pop] := by
  simp [branch]

@[simp]
theorem mem_op (p : δ α) (i : Instruction α) : .production p ∈ (op i : Word δ α) ↔ False := by
  simp [op]

@[simp]
theorem mem_grow (p q : δ α) : .production p ∈ grow q ↔ p = q := by simp [grow]

@[simp]
theorem mem_branch (p : δ α) (w : Word δ α) : .production p ∈ branch w ↔ .production p ∈ w := by
  simp [branch]

structure Sound (sort : δ α → Prop) (w : Word δ α) : Prop where
  program : WellFormed w.program
  productions : ∀ p, .production p ∈ w → sort p

namespace Sound

variable {sort : δ α → Prop} {v w : Word δ α}

theorem nil : Sound sort [] := ⟨.nil, nofun⟩

theorem op {i : Instruction α} (h : ∀ o : Outline, o.next? i = some o) : Sound sort (op i) :=
  ⟨.singleton h, by simp⟩

theorem grow {p : δ α} (h : sort p) : Sound sort (grow p) := ⟨.nil, by simp [h]⟩

theorem append (hv : v.Sound sort) (hw : w.Sound sort) : (v ++ w).Sound sort := by
  refine ⟨?_, fun p hp => (List.mem_append.mp hp).elim (hv.productions p) (hw.productions p)⟩
  rw [program_append]
  exact hv.program.append hw.program

theorem branch (h : w.Sound sort) : w.branch.Sound sort := by
  refine ⟨?_, fun p hp => h.productions p ((mem_branch p w).mp hp)⟩
  rw [program_branch]
  exact h.program.enclose

theorem flatMap {ι : Type} {is : List ι} {f : ι → Word δ α} (h : ∀ i ∈ is, (f i).Sound sort) :
    Sound sort (is.flatMap f) := by
  induction is with
  | nil => exact nil
  | cons i is ih =>
      rw [List.flatMap_cons]
      exact (h i List.mem_cons_self).append (ih fun j hj => h j (List.mem_cons_of_mem _ hj))

end Sound

end Word

variable [Dialect δ] [Scalar α]

/-- What is known of the successors of every symbol, and can be put together, is known of the next
word. -/
theorem Derivation.replaceAll_meets {params : Store α} {bad : Fault α → Prop}
    {rel : Word δ α → Word δ α → Prop} (hnil : rel [] [])
    (happend : ∀ v v' w w', rel v v' → rel w w' → rel (v ++ w) (v' ++ w')) (w : Word δ α)
    (h : ∀ s ∈ w, Drawing.Meets bad (rel [s]) (replace params s)) :
    Drawing.Meets bad (rel w) (replaceAll params w) := by
  have honto (w : Word δ α) (h : ∀ s ∈ w, Drawing.Meets bad (rel [s]) (replace params s))
      (done : Array (Symbol δ α)) :
      Drawing.Meets bad (fun all => ∃ w', all.toList = done.toList ++ w' ∧ rel w w')
        (replaceOnto params done w) := by
    induction w generalizing done with
    | nil => exact Drawing.meets_pure ⟨[], by simp, hnil⟩
    | cons s rest ih =>
        refine (h s List.mem_cons_self).bind fun v hv => ?_
        intro g
        refine (ih (fun t ht => h t (List.mem_cons_of_mem _ ht)) (done ++ v) g).mono ?_ fun _ => id
        rintro all ⟨w', hall, hrel⟩
        exact ⟨v ++ w', by simp [hall], happend [s] v rest w' hv hrel⟩
  refine (honto w h #[]).bind ?_
  rintro all ⟨w', hall, hrel⟩
  refine Drawing.meets_pure ?_
  rw [hall]
  exact hrel

theorem Derivation.replaceAll_relates {params : Store α} {bad : Fault α → Prop}
    (rel : Word δ α → Word δ α → Prop) (hnil : rel [] [])
    (happend : ∀ v v' w w', rel v v' → rel w w' → rel (v ++ w) (v' ++ w')) (w : Word δ α)
    (hseed : ∀ seed, rel (Word.op (.reseed seed)) [])
    (hinstruction : ∀ i, .instruction i ∈ w →
      Meets bad (fun j => rel (Word.op i) (Word.op j)) (Dialect.regrow δ params i))
    (hproduction : ∀ p, .production p ∈ w →
      Drawing.Meets bad (rel (Word.grow p)) (Dialect.successor params p)) :
    Drawing.Meets bad (rel w) (replaceAll params w) := by
  have hage (i : Instruction α) (hi : .instruction i ∈ w) :
      Drawing.Meets bad (rel (Word.op i)) (Derivation.successor params (.instruction i)) :=
    (Drawing.meets_lift (hinstruction i hi)).bind fun j hj => Drawing.meets_pure hj
  refine replaceAll_meets hnil happend w fun s hs => ?_
  cases s with
  | production p => exact hproduction p hs
  | instruction i =>
      cases i with
      | reseed seed => exact fun _ => hseed seed
      | _ => exact hage _ hs

theorem Derivation.replaceAll_sound {params : Store α} {bad : Fault α → Prop}
    {sort sort' : δ α → Prop}
    (hsuccessor : ∀ p, sort p →
      Drawing.Meets bad (Word.Sound sort') (Dialect.successor params p))
    (hregrow : ∀ i, Meets bad (fun j => ∀ o : Outline, o.next? j = o.next? i)
      (Dialect.regrow δ params i)) {w : Word δ α} (hw : w.Sound sort) :
    Drawing.Meets bad (Word.Sound sort') (replaceAll params w) := by
  let rel (v v' : Word δ α) : Prop :=
    Refines v.program v'.program ∧ ∀ p, .production p ∈ v' → sort' p
  have happend (v v' w w' : Word δ α) (hv : rel v v') (hw : rel w w') :
      rel (v ++ w) (v' ++ w') := by
    refine ⟨?_, fun p hp => (List.mem_append.mp hp).elim (hv.2 p) (hw.2 p)⟩
    rw [Word.program_append, Word.program_append]
    exact hv.1.append hw.1
  have hnil : rel [] [] := ⟨fun o o' ho => ⟨o', ho, rfl, id⟩, nofun⟩
  have hseed (seed : UInt64) : rel (Word.op (.reseed seed)) [] :=
    ⟨fun o o' ho => ⟨o', ho, rfl, id⟩, nofun⟩
  have hinstruction (i : Instruction α) (_ : .instruction i ∈ w) :
      Meets bad (fun j => rel (Word.op i) (Word.op j)) (Dialect.regrow δ params i) :=
    (hregrow i).mono (fun _ hj => ⟨Refines.of_next? hj, by simp⟩) fun _ => id
  have hproduction (p : δ α) (hp : .production p ∈ w) :
      Drawing.Meets bad (rel (Word.grow p)) (Dialect.successor params p) := fun g =>
    (hsuccessor p (hw.productions p hp) g).mono
      (fun _ hv => ⟨hv.program.refines, hv.productions⟩) fun _ => id
  have hnext := replaceAll_relates rel hnil happend w hseed hinstruction hproduction
  exact fun g => (hnext g).mono (fun _ hw' => ⟨hw'.1.wellFormed hw.program, hw'.2⟩) fun _ => id

/-- In all of the generations, productions of the sort of their generation have sound successors of
the sort of the next one, and instructions keep their brackets. -/
structure Tame (params : Store α) (generations : Nat) (overrun : Prop)
    (sort : Nat → δ α → Prop) : Prop where
  successor : ∀ n, n < generations → ∀ p, sort n p →
    Drawing.Meets (params.Excuses overrun) (Word.Sound (sort (n + 1)))
      (Dialect.successor params p)
  regrow : ∀ i, Meets (params.Excuses overrun) (fun j => ∀ o : Outline, o.next? j = o.next? i)
    (Dialect.regrow δ params i)

theorem Tame.replaceAll {params : Store α} {generations n : Nat} {overrun : Prop}
    {sort : Nat → δ α → Prop} (h : Tame params generations overrun sort) (hn : n < generations)
    {w : Word δ α} (hw : w.Sound (sort n)) :
    Drawing.Meets (params.Excuses overrun) (Word.Sound (sort (n + 1)))
      (Derivation.replaceAll params w) :=
  Derivation.replaceAll_sound (h.successor n hn) h.regrow hw

namespace Derivation

variable {params : Store α} {post : Word δ α → Prop}

theorem replaceOnto_keeps (w : Word δ α) (done : Array (Symbol δ α)) :
    Drawing.Meets (fun _ => True) (fun all => ∀ s ∈ done.toList, s ∈ all.toList)
      (replaceOnto params done w) := by
  induction w generalizing done with
  | nil => exact Drawing.meets_pure fun _ => id
  | cons s rest ih =>
      refine (Drawing.meets_any _).bind fun v _ g => ?_
      refine (ih (done ++ v) g).mono (fun all hall t ht => hall t ?_) fun _ => id
      simp [ht]

theorem replaceAll_member {p : δ α} {w : Word δ α} (hmem : .production p ∈ w)
    (h : Drawing.Meets (fun _ => True) post (Dialect.successor params p)) :
    Drawing.Meets (fun _ => True) (fun all => ∃ v, post v ∧ ∀ s ∈ v, s ∈ all)
      (replaceAll params w) := by
  have honto (w : Word δ α) (hmem : .production p ∈ w) (done : Array (Symbol δ α)) :
      Drawing.Meets (fun _ => True) (fun all => ∃ v, post v ∧ ∀ s ∈ v, s ∈ all.toList)
        (replaceOnto params done w) := by
    induction w generalizing done with
    | nil => cases hmem
    | cons s rest ih =>
        rcases List.mem_cons.mp hmem with rfl | hrest
        · refine Drawing.Meets.bind h fun v hv g => ?_
          refine (replaceOnto_keeps rest (done ++ v) g).mono ?_ fun _ => id
          exact fun all hall => ⟨v, hv, fun s hs => hall s (by simp [hs])⟩
        · exact (Drawing.meets_any _).bind fun v _ => ih hrest (done ++ v)
  exact (honto w hmem #[]).bind fun all hall => Drawing.meets_pure hall

end Derivation

namespace LSystem

theorem step_run (params : Store α) (l : LSystem δ α) :
    (step params).run.run l = match (Derivation.replaceAll params l.word).run.run l.generator with
      | (.ok word, generator) => (.ok (), { word, generator, generation := l.generation + 1 })
      | (.error fault, generator) => (.error fault, { l with generator }) := by
  have hget : (get : Growing δ α (LSystem δ α)).run.run l = (.ok l, l) := rfl
  rw [step, run_run_bind, hget]
  dsimp only
  rcases (Derivation.replaceAll params l.word).run.run l.generator with ⟨_ | word, g⟩ <;> rfl

theorem iterate_succ_run (params : Store α) (n : Nat) (l : LSystem δ α) :
    (iterate params (n + 1)).run.run l = match (step params).run.run l with
      | (.ok _, l) => (iterate params n).run.run l
      | (.error fault, l) => (.error fault, l) := by
  rw [iterate, run_run_bind]
  rcases (step params).run.run l with ⟨_ | _, l'⟩ <;> rfl

theorem iterate_meets {params : Store α} {bad : Fault α → Prop} {inv : Nat → Word δ α → Prop}
    {generations : Nat} (hstep : ∀ n w, n < generations → inv n w →
      Drawing.Meets bad (inv (n + 1)) (Derivation.replaceAll params w))
    {n k : Nat} (hk : n + k = generations) {l : LSystem δ α} (hl : inv n l.word) :
    match (iterate params k).run.run l with
      | (.ok _, l') => inv generations l'.word
      | (.error fault, _) => bad fault := by
  induction k generalizing n l with
  | zero => exact hk ▸ hl
  | succ k ih =>
      rw [iterate_succ_run, step_run]
      have h := hstep n l.word (by omega) hl l.generator
      cases hrun : (Derivation.replaceAll params l.word).run.run l.generator with
      | mk r generator =>
          rw [hrun] at h
          cases r with
          | error fault => exact h
          | ok word =>
              refine ih (n := n + 1) (by omega) ?_
              exact h

end LSystem

theorem derive_meets {params : Store α} {bad : Fault α → Prop} (inv : Nat → Word δ α → Prop)
    {start : Word δ α} (hbad : ∀ fault, params.Lacks fault → bad fault) (hstart : inv 0 start)
    (hstep : ∀ m, params.integer "iterationNumber" = .ok m → ∀ n w, n < m.toNatClampNeg →
      inv n w → Drawing.Meets bad (inv (n + 1)) (Derivation.replaceAll params w)) :
    Meets bad (fun r => inv r.1 r.2 ∧
        ∃ m, params.integer "iterationNumber" = .ok m ∧ r.1 = m.toNatClampNeg)
      (derive params start) := by
  refine (Store.meets_integer.mono (fun _ => id) hbad).bind fun m hm => ?_
  have h := LSystem.iterate_meets (hstep m hm) (Nat.zero_add _) (l := { word := start }) hstart
  cases hrun : (LSystem.iterate params m.toNatClampNeg).run.run { word := start } with
  | mk r l =>
      rw [hrun] at h
      dsimp only
      rw [hrun]
      cases r with
      | error fault => exact h
      | ok _ => exact ⟨h, m, hm, rfl⟩

theorem Tame.derive {params : Store α} {overrun : Prop} {sort : Nat → δ α → Prop}
    {start : Word δ α} (hstart : start.Sound (sort 0))
    (h : ∀ m, params.integer "iterationNumber" = .ok m →
      Tame params m.toNatClampNeg overrun sort) :
    Meets (params.Excuses overrun) (fun r => r.2.Sound (sort r.1)) (derive params start) :=
  (derive_meets (fun n w => w.Sound (sort n)) (fun _ => Or.inl) hstart
    fun m hm _ _ hn hw => (h m hm).replaceAll hn hw).mono (fun _ => And.left) fun _ => id

namespace Grammar

variable {params : Store α} {overrun : Prop}

/-- Whatever the grammar derives is well formed, and faults are excused. -/
def Sound (g : Grammar) (params : Store α) (overrun : Prop) : Prop :=
  Meets (params.Excuses overrun) (fun r => WellFormed r.2.program)
    (g.start params >>= derive params)

theorem sound_of_tame {g : Grammar} (sort : Nat → g.Production α → Prop)
    (hstart : Meets (params.Excuses overrun) (Word.Sound (sort 0)) (g.start params))
    (h : ∀ m, params.integer "iterationNumber" = .ok m →
      Tame params m.toNatClampNeg overrun sort) : g.Sound params overrun :=
  hstart.bind fun _ hw => (Tame.derive hw h).mono (fun _ hr => hr.program) fun _ => id

theorem sound_of_successors {g : Grammar}
    (successor : g.Production α → Except (Fault α) (Word g.Production α))
    (hstart : Meets (params.Excuses overrun) (fun w => WellFormed w.program) (g.start params))
    (hlift : ∀ p, Dialect.successor params p = liftM (successor p))
    (hsuccessor : ∀ p, Meets (params.Excuses overrun) (fun w => WellFormed w.program)
      (successor p))
    (hregrow : ∀ i, Meets (params.Excuses overrun)
      (fun j => ∀ o : Outline, o.next? j = o.next? i) (Dialect.regrow g.Production params i)) :
    g.Sound params overrun := by
  have hsound {x : Except (Fault α) (Word g.Production α)}
      (hx : Meets (params.Excuses overrun) (fun w => WellFormed w.program) x) :
      Meets (params.Excuses overrun) (Word.Sound fun _ => True) x :=
    hx.mono (fun _ hw => ⟨hw, fun _ _ => trivial⟩) fun _ => id
  refine sound_of_tame (fun _ _ => True) (hsound hstart) fun m _ => ⟨?_, hregrow⟩
  intro n _ p _
  rw [hlift]
  exact Drawing.meets_lift (hsound (hsuccessor p))

end Grammar

end Arbor
