import Arbor.Proofs.WordDerivation

namespace Arbor

variable {α β γ : Type}

theorem Meets.bind_any {ε : Type} {post : γ → Prop} {x : Except ε β} {f : β → Except ε γ}
    (hf : ∀ b, Meets (fun _ => True) post (f b)) : Meets (fun _ => True) post (x >>= f) := by
  cases x with
  | error e => trivial
  | ok b => exact hf b

namespace Drawing

/-- What comes of the computation is the same wherever its draws start. -/
def Blind (x : Drawing α β) : Prop := ∀ g g', (x.run.run g).1 = (x.run.run g').1

def Still (x : Drawing α β) : Prop := ∃ r, ∀ g, x.run.run g = (r, g)

theorem still_lift (x : Except (Fault α) β) : Still (liftM x : Drawing α β) :=
  ⟨x, fun _ => by cases x <;> rfl⟩

theorem Still.bind {x : Drawing α β} {f : β → Drawing α γ} (hx : Still x) (hf : ∀ b, Still (f b)) :
    Still (x >>= f) := by
  obtain ⟨r, hr⟩ := hx
  cases r with
  | error fault => exact ⟨.error fault, fun g => by rw [run_run_bind, hr]⟩
  | ok b =>
      obtain ⟨r, hf⟩ := hf b
      exact ⟨r, fun g => by rw [run_run_bind, hr]; exact hf g⟩

theorem blind_pure (c : γ) : Blind (Pure.pure c : Drawing α γ) := fun _ _ => rfl

theorem Blind.bind {x : Drawing α β} {f : β → Drawing α γ} (hx : Blind x) (hf : ∀ b, Blind (f b)) :
    Blind (x >>= f) := by
  intro g g'
  have h := hx g g'
  rw [run_run_bind, run_run_bind]
  generalize x.run.run g = r at h ⊢
  generalize x.run.run g' = r' at h ⊢
  obtain ⟨r, k⟩ := r
  obtain ⟨r', k'⟩ := r'
  cases h
  cases r with
  | error fault => rfl
  | ok b => exact hf b k k'

end Drawing

theorem Drawing.bind_any {post : γ → Prop} {x : Drawing α β} {f : β → Drawing α γ}
    (hf : ∀ b, Drawing.Meets (fun _ => True) post (f b)) :
    Drawing.Meets (fun _ => True) post (x >>= f) :=
  (Drawing.meets_any x).bind fun b _ => hf b

variable {δ : Type → Type}

/-- A seed restarts the draws, and other symbols leave them where they are. -/
def Symbol.restart : Symbol δ α → Generator → Generator
  | .instruction (.reseed seed), _ => .ofSeed seed
  | _, g => g

theorem Symbol.restart_eq {s : Symbol δ α} (hs : ∀ seed, s ≠ .instruction (.reseed seed))
    (g : Generator) : s.restart g = g := by
  rw [restart]
  exact hs

namespace Word

def Seedless (w : Word δ α) : Prop := ∀ seed, .instruction (.reseed seed) ∉ w

variable {v w : Word δ α}

theorem seedless_nil : Seedless ([] : Word δ α) := fun _ => List.not_mem_nil

@[simp]
theorem seedless_append : (v ++ w).Seedless ↔ v.Seedless ∧ w.Seedless := by
  simp [Seedless, not_or, forall_and]

@[simp]
theorem seedless_op (i : Instruction α) :
    (op i : Word δ α).Seedless ↔ ∀ seed, i ≠ .reseed seed := by
  simp [Seedless, op, eq_comm]

@[simp]
theorem seedless_grow (p : δ α) : (grow p).Seedless := by simp [Seedless, grow]

@[simp]
theorem seedless_branch : w.branch.Seedless ↔ w.Seedless := by simp [branch]

theorem seedless_flatMap {ι : Type} {is : List ι} {f : ι → Word δ α} (h : ∀ i, (f i).Seedless) :
    Seedless (is.flatMap f) := by
  intro seed hmem
  obtain ⟨i, -, hi⟩ := List.mem_flatMap.mp hmem
  exact h i seed hi

theorem seedless_cons {s : Symbol δ α} :
    Seedless (s :: w) ↔ (∀ seed, s ≠ .instruction (.reseed seed)) ∧ w.Seedless := by
  simp [Seedless, not_or, forall_and, eq_comm]

end Word

variable [Dialect δ] [Scalar α]

namespace Derivation

variable {params : Store α}

theorem replaceOnto_append (done : Array (Symbol δ α)) (v w : Word δ α) :
    replaceOnto params done (v ++ w) =
      replaceOnto params done v >>= fun found => replaceOnto params found w := by
  induction v generalizing done with
  | nil => rw [List.nil_append, replaceOnto, pure_bind]
  | cons s rest ih => simp only [List.cons_append, replaceOnto, ih, bind_assoc]

theorem replaceOnto_eq (done : Array (Symbol δ α)) (w : Word δ α) :
    replaceOnto params done w = replaceAll params w >>= fun v => pure (done ++ v) := by
  have h (start : Array (Symbol δ α)) :
      replaceOnto params (done ++ start) w =
        replaceOnto params start w >>= fun found => pure (done ++ found) := by
    induction w generalizing start with
    | nil => simp only [replaceOnto, pure_bind]
    | cons s rest ih =>
        have hassoc (v : Word δ α) : done ++ start ++ v = done ++ (start ++ v) :=
          Array.toList_inj.mp (by simp)
        simp only [replaceOnto, bind_assoc, hassoc, ih]
  have hempty := h #[]
  rw [Array.append_empty] at hempty
  rw [hempty, replaceAll, bind_assoc]
  refine bind_congr fun found => ?_
  rw [pure_bind]
  exact congrArg pure (Array.toList_inj.mp (by simp))

theorem replaceAll_append (v w : Word δ α) :
    replaceAll params (v ++ w) = do
      let v' ← replaceAll params v
      let w' ← replaceAll params w
      return v' ++ w' := by
  rw [replaceAll, replaceOnto_append, bind_assoc, replaceAll, bind_assoc]
  refine bind_congr fun found => ?_
  rw [replaceOnto_eq, bind_assoc, pure_bind]
  exact bind_congr fun w' => by simp

theorem replaceOnto_reseed (done : Array (Symbol δ α)) (seed : UInt64) (w : Word δ α)
    (g : Generator) :
    (replaceOnto params done (.instruction (.reseed seed) :: w)).run.run g =
      (replaceOnto params done w).run.run (.ofSeed seed) := by
  have hset : (replace params (.instruction (.reseed seed) : Symbol δ α)).run.run g =
      (.ok [], .ofSeed seed) := rfl
  rw [replaceOnto, run_run_bind, hset]
  simp

theorem replaceAll_reseed (seed : UInt64) (w : Word δ α) (g : Generator) :
    (replaceAll params (.instruction (.reseed seed) :: w)).run.run g =
      (replaceAll params w).run.run (.ofSeed seed) := by
  rw [replaceAll, run_run_bind, replaceOnto_reseed, replaceAll, run_run_bind]

/-- No symbol draws, and what replaces it does not depend on the generator. -/
def Drawless (δ : Type → Type) [Dialect δ] (params : Store α) : Prop :=
  ∀ s : Symbol δ α, ∃ r, ∀ g, (replace params s).run.run g = (r, s.restart g)

theorem still_replace {s : Symbol δ α} (hs : ∀ seed, s ≠ .instruction (.reseed seed))
    (h : ∀ p, s = .production p → (Dialect.successor params p).Still) :
    (replace params s).Still := by
  have hkeep (i : Instruction α) : (successor params (.instruction i : Symbol δ α)).Still :=
    (Drawing.still_lift _).bind fun j => Drawing.still_lift (.ok (Word.op j))
  cases s with
  | production p => exact h p rfl
  | instruction i =>
      cases i with
      | reseed seed => exact (hs seed rfl).elim
      | _ => exact hkeep _

theorem drawless_of_lift (x : δ α → Except (Fault α) (Word δ α))
    (h : ∀ p, Dialect.successor params p = liftM (x p)) : Drawless δ params := by
  intro s
  by_cases hs : ∃ seed, s = .instruction (.reseed seed)
  · obtain ⟨seed, rfl⟩ := hs
    exact ⟨.ok [], fun _ => rfl⟩
  · have hs' : ∀ seed, s ≠ .instruction (.reseed seed) := fun seed he => hs ⟨seed, he⟩
    obtain ⟨r, hr⟩ := still_replace hs' fun p _ => h p ▸ Drawing.still_lift (x p)
    exact ⟨r, fun g => by rw [hr, Symbol.restart_eq hs']⟩

theorem blind_replaceAll {w : Word δ α}
    (h : ∀ s ∈ w, ∃ r, ∀ g, (replace params s).run.run g = (r, s.restart g)) :
    (replaceAll params w).Blind := by
  have honto (done : Array (Symbol δ α)) : (replaceOnto params done w).Blind := by
    induction w generalizing done with
    | nil => exact Drawing.blind_pure _
    | cons s rest ih =>
        obtain ⟨⟨r, hr⟩, hrest⟩ := List.forall_mem_cons.mp h
        refine Drawing.Blind.bind (fun g g' => ?_) fun v => ih hrest (done ++ v)
        rw [hr, hr]
  exact (honto #[]).bind fun _ => Drawing.blind_pure _

namespace Drawless

variable {w : Word δ α}

theorem blind (h : Drawless δ params) (w : Word δ α) : (replaceAll params w).Blind :=
  blind_replaceAll fun s _ => h s

theorem generator (h : Drawless δ params) (hw : w.Seedless) (g : Generator) :
    ((replaceAll params w).run.run g).2 = g := by
  have honto (done : Array (Symbol δ α)) : ((replaceOnto params done w).run.run g).2 = g := by
    induction w generalizing done with
    | nil => rfl
    | cons s rest ih =>
        obtain ⟨hs, hrest⟩ := Word.seedless_cons.mp hw
        obtain ⟨r, hr⟩ := h s
        rw [replaceOnto, run_run_bind, hr, Symbol.restart_eq hs]
        cases r with
        | error fault => rfl
        | ok v => exact ih hrest _
  have hfound := honto #[]
  rw [replaceAll, run_run_bind]
  generalize (replaceOnto params #[] w).run.run g = r at hfound ⊢
  obtain ⟨_ | found, g'⟩ := r <;> exact hfound

end Drawless

def Seedless (δ : Type → Type) [Dialect δ] (params : Store α) : Prop :=
  ∀ s : Symbol δ α, Drawing.Meets (fun _ => True) Word.Seedless (replace params s)

theorem seedless_of_successors
    (hsuccessor : ∀ p, Drawing.Meets (fun _ => True) Word.Seedless
      (Dialect.successor params p : Drawing α (Word δ α)))
    (hregrow : ∀ i, (∀ seed, i ≠ .reseed seed) →
      Meets (fun _ => True) (fun j => ∀ seed, j ≠ .reseed seed) (Dialect.regrow δ params i)) :
    Seedless δ params := by
  have hkeep (i : Instruction α) (hi : ∀ seed, i ≠ .reseed seed) :
      Drawing.Meets (fun _ => True) Word.Seedless
        (successor params (.instruction i : Symbol δ α)) :=
    (Drawing.meets_lift (hregrow i hi)).bind fun j hj =>
      Drawing.meets_pure ((Word.seedless_op j).mpr hj)
  intro s
  cases s with
  | production p => exact hsuccessor p
  | instruction i =>
      cases i with
      | reseed seed => exact fun _ => Word.seedless_nil
      | _ => exact hkeep _ nofun

theorem Seedless.replaceAll (h : Seedless δ params) (w : Word δ α) :
    Drawing.Meets (fun _ => True) Word.Seedless (replaceAll params w) := by
  let rel (_ v : Word δ α) : Prop := v.Seedless
  have happend (v v' w w' : Word δ α) (hv : rel v v') (hw : rel w w') : rel (v ++ w) (v' ++ w') :=
    Word.seedless_append.mpr ⟨hv, hw⟩
  have hnil : rel [] [] := Word.seedless_nil
  exact replaceAll_meets hnil happend w fun s _ => h s

/-- The next word, with draws that start at the seed zero. -/
def next (params : Store α) (w : Word δ α) : Except (Fault α) (Word δ α) :=
  ((replaceAll params w).run.run (Generator.ofSeed 0)).1

theorem next_nil : next params ([] : Word δ α) = .ok [] := rfl

theorem next_op {i : Instruction α} (hi : ∀ seed, i ≠ .reseed seed) :
    next params (Word.op i : Word δ α) = (Dialect.regrow δ params i).map Word.op := by
  have hkeep : replace params (.instruction i : Symbol δ α) =
      successor params (.instruction i : Symbol δ α) := by
    cases i with
    | reseed seed => exact (hi seed rfl).elim
    | _ => rfl
  rw [next, replaceAll, Word.op, replaceOnto, hkeep, successor]
  cases Dialect.regrow δ params i with
  | error fault => rfl
  | ok j => rfl

theorem next_grow {p : δ α} {x : Except (Fault α) (Word δ α)}
    (h : Dialect.successor params p = liftM x) : next params (Word.grow p) = x := by
  have hreplace : replace params (.production p) = liftM x := h
  rw [next, replaceAll, Word.grow, replaceOnto, hreplace]
  cases x with
  | error fault => rfl
  | ok w => exact congrArg Except.ok (by simp)

theorem Drawless.next_append (h : Drawless δ params) (v w : Word δ α) :
    next params (v ++ w) = do
      let v' ← next params v
      let w' ← next params w
      return v' ++ w' := by
  rw [next, replaceAll_append, run_run_bind, next, next]
  rcases (replaceAll params v).run.run (Generator.ofSeed 0) with ⟨_ | v', g⟩
  · rfl
  · dsimp only
    rw [run_run_bind, ← h.blind w g (Generator.ofSeed 0)]
    rcases (replaceAll params w).run.run g with ⟨_ | w', g'⟩ <;> rfl

def Expands (params : Store α) : Nat → Word δ α → Word δ α → Prop
  | 0, w, w' => w = w'
  | n + 1, w, w' => ∃ v, next params w = .ok v ∧ Expands params n v w'

theorem expands_nil {n : Nat} {w : Word δ α} : Expands params n [] w ↔ w = [] := by
  induction n with
  | zero => exact eq_comm
  | succ n ih => simp [Expands, next_nil, ih]

theorem Drawless.expands_append (h : Drawless δ params) {n : Nat} {v w u : Word δ α} :
    Expands params n (v ++ w) u ↔
      ∃ v' w', Expands params n v v' ∧ Expands params n w w' ∧ v' ++ w' = u := by
  induction n generalizing v w with
  | zero => simp [Expands]
  | succ n ih =>
      simp only [Expands, h.next_append, bind_eq_ok]
      constructor
      · rintro ⟨-, ⟨v₁, hv, w₁, hw, ⟨⟩⟩, hu⟩
        obtain ⟨v', w', hv', hw', rfl⟩ := ih.mp hu
        exact ⟨v', w', ⟨v₁, hv, hv'⟩, ⟨w₁, hw, hw'⟩, rfl⟩
      · rintro ⟨v', w', ⟨v₁, hv, hv'⟩, ⟨w₁, hw, hw'⟩, rfl⟩
        exact ⟨v₁ ++ w₁, ⟨v₁, hv, w₁, hw, rfl⟩, ih.mpr ⟨v', w', hv', hw', rfl⟩⟩

end Derivation

namespace LSystem

open Arbor.Derivation

variable {params : Store α} {n : Nat} {l l' : LSystem δ α}

theorem step_eq_ok (h : (step params).run.run l = (.ok (), l')) :
    (replaceAll params l.word).run.run l.generator = (.ok l'.word, l'.generator) := by
  rw [step_run] at h
  rcases hnext : (replaceAll params l.word).run.run l.generator with ⟨fault | w, g⟩
  · rw [hnext] at h
    cases h
  · rw [hnext] at h
    cases h
    rfl

theorem iterate_succ_eq_ok (h : (iterate params (n + 1)).run.run l = (.ok (), l')) :
    ∃ m, (step params).run.run l = (.ok (), m) ∧ (iterate params n).run.run m = (.ok (), l') := by
  rw [iterate_succ_run] at h
  rcases hstep : (step params).run.run l with ⟨fault | _, m⟩
  · rw [hstep] at h
    cases h
  · rw [hstep] at h
    exact ⟨m, rfl, h⟩

/-- What has become of a word after so many generations, with draws from a given place on. -/
def after (params : Store α) (n : Nat) (word : Word δ α) (generator : Generator) :
    Except (Fault α) Unit × LSystem δ α :=
  (iterate params n).run.run { word, generator }

theorem iterate_keeps (inv : Nat → LSystem δ α → Prop) {k : Nat}
    (h : (iterate params n).run.run l = (.ok (), l')) (hstart : inv k l)
    (hstep : ∀ k l l', inv k l → (step params).run.run l = (.ok (), l') → inv (k + 1) l') :
    inv (k + n) l' := by
  induction n generalizing k l with
  | zero =>
      cases h
      exact hstart
  | succ n ih =>
      obtain ⟨m, hm, hrest⟩ := iterate_succ_eq_ok h
      rw [← Nat.add_assoc, Nat.add_right_comm]
      exact ih hrest (hstep k l m hstart hm)

theorem after_keeps (inv : Nat → Word δ α → Prop) {word : Word δ α} {g : Generator}
    (h : after params n word g = (.ok (), l)) (hstart : inv 0 word)
    (hstep : ∀ n w, inv n w →
      Drawing.Meets (fun _ => True) (inv (n + 1)) (replaceAll params w)) : inv n l.word := by
  refine Nat.zero_add n ▸ iterate_keeps (fun n l => inv n l.word) h hstart ?_
  intro k l l' hl hnext
  have hmeets := hstep k l.word hl l.generator
  rwa [step_eq_ok hnext] at hmeets

structure Agree (r r' : Except (Fault α) Unit × LSystem δ α) : Prop where
  outcome : r.1 = r'.1
  word : r.2.word = r'.2.word
  generation : r.2.generation = r'.2.generation

theorem agree_step {l l' : LSystem δ α} (hword : l.word = l'.word)
    (hgeneration : l.generation = l'.generation)
    (hnext : ((replaceAll params l.word).run.run l.generator).1 =
      ((replaceAll params l.word).run.run l'.generator).1) :
    Agree ((step params).run.run l) ((step params).run.run l') := by
  rw [step_run, step_run, ← hword]
  generalize (replaceAll params l.word).run.run l.generator = r at hnext ⊢
  generalize (replaceAll params l.word).run.run l'.generator = r' at hnext ⊢
  obtain ⟨r, g⟩ := r
  obtain ⟨r', g'⟩ := r'
  cases hnext
  cases r with
  | error fault => exact ⟨rfl, rfl, hgeneration⟩
  | ok w => exact ⟨rfl, rfl, congrArg (· + 1) hgeneration⟩

theorem agree_iterate (l l' : LSystem δ α) (h : Drawless δ params) (hword : l.word = l'.word)
    (hgeneration : l.generation = l'.generation) (n : Nat) :
    Agree ((iterate params n).run.run l) ((iterate params n).run.run l') := by
  induction n generalizing l l' with
  | zero => exact ⟨rfl, hword, hgeneration⟩
  | succ n ih =>
      have hstep := agree_step hword hgeneration (h.blind l.word l.generator l'.generator)
      rw [iterate_succ_run, iterate_succ_run]
      generalize (step params).run.run l = r at hstep ⊢
      generalize (step params).run.run l' = r' at hstep ⊢
      obtain ⟨r, m⟩ := r
      obtain ⟨r', m'⟩ := r'
      obtain ⟨houtcome, hword', hgeneration'⟩ := hstep
      cases houtcome
      cases r with
      | error fault => exact ⟨rfl, hword', hgeneration'⟩
      | ok _ => exact ih m m' hword' hgeneration'

theorem agree_after (h : Drawless δ params) (w : Word δ α) (n : Nat) (g g' : Generator) :
    Agree (after params n w g) (after params n w g') :=
  agree_iterate ⟨w, g, 0⟩ ⟨w, g', 0⟩ h rfl rfl n

/-- A word that starts with a seed grows alike from all generators. -/
theorem agree_after_reseed (seed : UInt64) (w : Word δ α) (n : Nat) (g g' : Generator) :
    Agree (after params n (.instruction (.reseed seed) :: w) g)
      (after params n (.instruction (.reseed seed) :: w) g') := by
  cases n with
  | zero => exact ⟨rfl, rfl, rfl⟩
  | succ n =>
      rw [after, after, iterate_succ_run, iterate_succ_run, step_run, step_run, replaceAll_reseed,
        replaceAll_reseed]
      exact ⟨rfl, rfl, rfl⟩

theorem iterate_eq_ok (h : Drawless δ params) {w : Word δ α} :
    (∃ l', (iterate params n).run.run l = (.ok (), l') ∧ l'.word = w) ↔
      Expands params n l.word w := by
  induction n generalizing l with
  | zero => exact ⟨fun ⟨_, hrun, hw⟩ => by cases hrun; exact hw, fun hw => ⟨l, rfl, hw⟩⟩
  | succ n ih =>
      have hblind := h.blind l.word l.generator (Generator.ofSeed 0)
      rw [iterate_succ_run, step_run, Expands, next, ← hblind]
      rcases (replaceAll params l.word).run.run l.generator with ⟨fault | v, g⟩
      · exact iff_of_false (fun ⟨_, hrun, _⟩ => by cases hrun) (fun ⟨_, hv, _⟩ => by cases hv)
      · simp only [ih, Except.ok.injEq, exists_eq_left']

theorem generator_iterate (h : Drawless δ params) (hkeep : Derivation.Seedless δ params)
    (hl : l.word.Seedless) (n : Nat) :
    ((iterate params n).run.run l).2.generator = l.generator := by
  induction n generalizing l with
  | zero => rfl
  | succ n ih =>
      have hgenerator := h.generator hl l.generator
      have hword := hkeep.replaceAll l.word l.generator
      rw [iterate_succ_run, step_run]
      generalize (replaceAll params l.word).run.run l.generator = r at hgenerator hword ⊢
      obtain ⟨r, g⟩ := r
      cases hgenerator
      cases r with
      | error fault => rfl
      | ok w => exact ih (l := { word := w, generator := l.generator, generation := _ }) hword

theorem seedless_iterate (hkeep : Derivation.Seedless δ params)
    (hl : 0 < l.generation → l.word.Seedless) (n : Nat) :
    0 < ((iterate params n).run.run l).2.generation →
      ((iterate params n).run.run l).2.word.Seedless := by
  induction n generalizing l with
  | zero => exact hl
  | succ n ih =>
      have hword := hkeep.replaceAll l.word l.generator
      rw [iterate_succ_run, step_run]
      rcases hrun : (replaceAll params l.word).run.run l.generator with ⟨fault | w, g⟩
      · exact hl
      · rw [hrun] at hword
        exact ih fun _ => hword

/-- What two words become alone, they become next to each other. -/
def ContextFree (δ : Type → Type) [Dialect δ] (params : Store α) : Prop :=
  ∀ (n : Nat) (v w : Word δ α) (g₁ g₂ g : Generator) (l₁ l₂ : LSystem δ α),
    after params n v g₁ = (.ok (), l₁) → after params n w g₂ = (.ok (), l₂) →
      ∃ l, after params n (v ++ w) g = (.ok (), l) ∧ l.word = l₁.word ++ l₂.word

theorem contextFree_of_drawless (h : Drawless δ params) : ContextFree δ params := by
  intro n v w g₁ g₂ g l₁ l₂ hv hw
  have hv' := (iterate_eq_ok h).mp ⟨l₁, hv, rfl⟩
  have hw' := (iterate_eq_ok h).mp ⟨l₂, hw, rfl⟩
  exact (iterate_eq_ok h).mpr (h.expands_append.mpr ⟨_, _, hv', hw', rfl⟩)

end LSystem

theorem derive_eq_ok {params : Store α} (h : Derivation.Drawless δ params) {start w : Word δ α}
    {n : Nat} : derive params start = .ok (n, w) ↔
      ∃ m, params.integer "iterationNumber" = .ok m ∧ m.toNatClampNeg = n ∧
        Derivation.Expands params n start w := by
  rw [derive, bind_eq_ok]
  refine exists_congr fun m => and_congr_right fun _ => ?_
  have hiff := LSystem.iterate_eq_ok h (n := m.toNatClampNeg) (l := { word := start }) (w := w)
  dsimp only
  rcases hrun : (LSystem.iterate params m.toNatClampNeg).run.run { word := start } with
    ⟨fault | _, l⟩
  · rw [hrun] at hiff
    refine iff_of_false nofun fun ⟨hn, hw⟩ => ?_
    obtain ⟨_, hrun', -⟩ := hiff.mpr (hn ▸ hw)
    cases hrun'
  · rw [hrun] at hiff
    constructor
    · intro he
      cases he
      exact ⟨rfl, hiff.mp ⟨l, rfl, rfl⟩⟩
    · rintro ⟨rfl, hw⟩
      obtain ⟨_, hrun', rfl⟩ := hiff.mpr hw
      cases hrun'
      rfl

end Arbor
