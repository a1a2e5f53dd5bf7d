import Arbor.Proofs.PlantPrograms

namespace Arbor

variable {α : Type}

/-- How many corners the newest polygon lacks behind an instruction if it lacked `n`. There is no
answer for a turtle that retires, for a fourth corner, and for a polygon opened too soon. -/
def Instruction.lacking? (n : Nat) : Instruction α → Option Nat
  | .openPolygon => if n = 0 then some 3 else none
  | .vertex =>
    match n with
    | 0 => none
    | k + 1 => some k
  | .advance _ => none
  | _ => some n

def openedPolygons (p : List (Instruction α)) : Nat := p.countP fun i => i matches .openPolygon

theorem openedPolygons_cons (i : Instruction α) (p : List (Instruction α)) :
    openedPolygons (i :: p) = openedPolygons p + openedPolygons [i] := by
  simp [openedPolygons, List.countP_cons]

@[simp]
theorem openedPolygons_nil : openedPolygons ([] : List (Instruction α)) = 0 := rfl

namespace Replay

structure Traced (s : Replay α) (lacking count : Nat) : Prop where
  retired : s.retired = []
  count : s.polygons.length = count
  newest : ∀ p, s.polygons.head? = some p → p.length + lacking = 3
  older : ∀ p ∈ s.polygons.tail, p.length = 3

theorem Traced.start (pose : Pose α) : (Replay.start pose).Traced 0 0 := by
  constructor <;> simp [Replay.start]

variable {s s' : Replay α} {i : Instruction α}

theorem onTop_collected {change : Pose α → Pose α} (h : s.onTop change = .ok s') :
    s'.retired = s.retired ∧ s'.polygons = s.polygons := by
  unfold onTop at h
  split at h
  · cases h
  · split at h
    · cases h
      exact ⟨rfl, rfl⟩
    · cases h

theorem push_collected (h : s.push = .ok s') :
    s'.retired = s.retired ∧ s'.polygons = s.polygons := by
  unfold push at h
  split at h
  · cases h
  · split at h
    · cases h
    · cases h
      exact ⟨rfl, rfl⟩

theorem pop_collected (h : s.pop = .ok s') :
    s'.retired = s.retired ∧ s'.polygons = s.polygons := by
  unfold pop at h
  split at h
  · cases h
  · cases h
    exact ⟨rfl, rfl⟩

theorem Traced.of_collected {n k : Nat} (ht : s.Traced n k)
    (h : s'.retired = s.retired ∧ s'.polygons = s.polygons) : s'.Traced n k := by
  obtain ⟨hretired, hpolygons⟩ := h
  constructor
  · rw [hretired, ht.retired]
  · rw [hpolygons, ht.count]
  · rw [hpolygons]
    exact ht.newest
  · rw [hpolygons]
    exact ht.older

theorem Traced.openPolygon {k : Nat} (ht : s.Traced 0 k) :
    ({ s with polygons := [] :: s.polygons } : Replay α).Traced 3 (k + 1) := by
  refine ⟨ht.retired, by simp [ht.count], ?_, ?_⟩
  · rintro p ⟨rfl⟩
    rfl
  · intro p hp
    change p ∈ s.polygons at hp
    cases hpolygons : s.polygons with
    | nil => simp [hpolygons] at hp
    | cons q older =>
        rw [hpolygons] at hp
        rcases List.mem_cons.mp hp with rfl | hp
        · exact ht.newest p (by rw [hpolygons]; rfl)
        · exact ht.older p (by rw [hpolygons]; exact hp)

theorem Traced.vertex {n k : Nat} (ht : s.Traced (n + 1) k) (h : s.vertex = .ok s') :
    s'.Traced n k := by
  unfold Replay.vertex at h
  split at h
  · cases h
  · split at h
    · cases h
    · cases h
    next t q older _ hpolygons =>
      cases h
      have hnewest := ht.newest q (by rw [hpolygons]; rfl)
      refine ⟨ht.retired, by simp [← ht.count, hpolygons], ?_, ?_⟩
      · rintro p ⟨rfl⟩
        rw [List.length_cons]
        omega
      · intro p hp
        exact ht.older p (by rw [hpolygons]; exact hp)

variable [Scalar α]

theorem Traced.step {n n' k : Nat} (ht : s.Traced n k) (hn : i.lacking? n = some n')
    (h : s.step i = .ok s') : s'.Traced n' (k + openedPolygons [i]) := by
  cases i with
  | advance => cases hn
  | openPolygon =>
      obtain ⟨rfl, hthree⟩ : n = 0 ∧ 3 = n' := by simpa [Instruction.lacking?] using hn
      cases h
      exact hthree ▸ ht.openPolygon
  | vertex =>
      cases n with
      | zero => cases hn
      | succ n =>
          cases hn
          exact ht.vertex h
  | push =>
      cases hn
      exact ht.of_collected (push_collected h)
  | pop =>
      cases hn
      exact ht.of_collected (pop_collected h)
  | rest | closePolygon | reseed =>
      cases hn
      cases h
      exact ht
  | move | grow | width | setLength | roll | pitch | turnLeft | turnRight | verticate | descend =>
      cases hn
      exact ht.of_collected (onTop_collected h)

theorem Traced.run {program : List (Instruction α)} {index n n' k : Nat} (ht : s.Traced n k)
    (hn : program.foldlM Instruction.lacking? n = some n') (h : s.run index program = .ok s') :
    s'.Traced n' (k + openedPolygons program) := by
  induction program generalizing s index n k with
  | nil =>
      cases hn
      cases h
      exact ht
  | cons i is ih =>
      obtain ⟨r, hr, hrun⟩ := run_cons_ok h
      obtain ⟨m, hm, hrest⟩ := Option.bind_eq_some_iff.mp hn
      rw [openedPolygons_cons, Nat.add_comm (openedPolygons is), ← Nat.add_assoc]
      exact ih (ht.step hm hr) hrest hrun

end Replay

theorem interpret_traces [Scalar α] {program : List (Instruction α)} {pose : Pose α}
    {out : Interpretation α} (hn : program.foldlM Instruction.lacking? 0 = some 0)
    (h : interpret program pose = .ok out) :
    out.retired = [] ∧ (∀ p ∈ out.polygons, p.length = 3) ∧
      out.polygons.length = openedPolygons program := by
  unfold interpret at h
  split at h
  next => cases h
  next s hrun =>
    have ht := (Replay.Traced.start pose).run hn hrun
    split at h
    · cases h
      refine ⟨by simp [ht.retired], ?_, by simp [ht.count]⟩
      intro p hp
      obtain ⟨q, hq, rfl⟩ := List.mem_map.mp (List.mem_reverse.mp hp)
      rw [List.length_reverse]
      cases hpolygons : s.polygons with
      | nil => simp [hpolygons] at hq
      | cons newest older =>
          rw [hpolygons] at hq
          rcases List.mem_cons.mp hq with rfl | hq
          · exact ht.newest q (by rw [hpolygons]; rfl)
          · exact ht.older q (by rw [hpolygons]; exact hq)
    · cases h

variable {δ : Type → Type} {isBud : δ α → Bool} {k : Nat} {v v' w w' : Word δ α}

def Symbol.lacking? (isBud : δ α → Bool) (n : Nat) : Symbol δ α → Option Nat
  | .instruction i => i.lacking? n
  | .production p => if isBud p = true ∧ n ≠ 0 then none else some n

namespace Word

def lacking? (isBud : δ α → Bool) (w : Word δ α) (n : Nat) : Option Nat :=
  w.foldlM (Symbol.lacking? isBud) n

def buds (isBud : δ α → Bool) (w : Word δ α) : Nat :=
  w.countP fun
    | .production p => isBud p
    | .instruction _ => false

@[simp]
theorem lacking?_append (n : Nat) :
    lacking? isBud (v ++ w) n = (lacking? isBud v n).bind (lacking? isBud w) :=
  List.foldlM_append ..

@[simp]
theorem lacking?_op (i : Instruction α) (n : Nat) : lacking? isBud (op i) n = i.lacking? n := by
  simp [lacking?, op, Symbol.lacking?]

@[simp]
theorem lacking?_grow (p : δ α) (n : Nat) :
    lacking? isBud (grow p) n = if isBud p = true ∧ n ≠ 0 then none else some n := by
  simp [lacking?, grow, Symbol.lacking?]

@[simp]
theorem lacking?_branch (n : Nat) : lacking? isBud (branch w) n = lacking? isBud w n := by
  have hpop : lacking? isBud (op .pop : Word δ α) = some := funext fun _ => rfl
  simp [branch, hpop, Instruction.lacking?]

@[simp]
theorem buds_append : buds isBud (v ++ w) = buds isBud v + buds isBud w := List.countP_append

@[simp]
theorem buds_op (i : Instruction α) : buds isBud (op i) = 0 := rfl

@[simp]
theorem buds_grow (p : δ α) : buds isBud (grow p) = if isBud p = true then 1 else 0 := by
  simp [buds, grow, List.countP_cons]

@[simp]
theorem buds_branch : buds isBud (branch w) = buds isBud w := by simp [branch]

theorem openedPolygons_append :
    openedPolygons (v ++ w).program = openedPolygons v.program + openedPolygons w.program := by
  rw [program_append]
  exact List.countP_append

theorem openedPolygons_branch :
    openedPolygons (branch w).program = openedPolygons w.program := by
  simp [branch, openedPolygons]

theorem lacking?_program {n n' : Nat} (h : lacking? isBud w n = some n') :
    w.program.foldlM Instruction.lacking? n = some n' := by
  induction w generalizing n with
  | nil => exact h
  | cons s w ih =>
      cases s with
      | instruction i =>
          obtain ⟨m, hm, hrest⟩ := Option.bind_eq_some_iff.mp h
          exact Option.bind_eq_some_iff.mpr ⟨m, hm, ih hrest⟩
      | production p =>
          obtain ⟨m, hm, hrest⟩ := Option.bind_eq_some_iff.mp h
          rw [Symbol.lacking?] at hm
          obtain rfl : n = m := by
            split at hm
            · cases hm
            · exact Option.some.inj hm
          exact ih hrest

/-- The word `w` follows upon `v` with `k` more triangles for each bud. -/
structure Unfolds (isBud : δ α → Bool) (k : Nat) (v w : Word δ α) : Prop where
  lacking : ∀ n n', lacking? isBud v n = some n' → lacking? isBud w n = some n'
  opened : openedPolygons w.program = openedPolygons v.program + k * buds isBud v
  buds : buds isBud w = buds isBud v

namespace Unfolds

theorem nil : Unfolds isBud k [] [] := ⟨fun _ _ => id, rfl, rfl⟩

theorem append (h : Unfolds isBud k v v') (h' : Unfolds isBud k w w') :
    Unfolds isBud k (v ++ w) (v' ++ w') := by
  constructor
  · intro n n' hn
    rw [lacking?_append] at hn ⊢
    obtain ⟨m, hm, hrest⟩ := Option.bind_eq_some_iff.mp hn
    exact Option.bind_eq_some_iff.mpr ⟨m, h.lacking n m hm, h'.lacking m n' hrest⟩
  · rw [openedPolygons_append, openedPolygons_append, buds_append, h.opened, h'.opened, Nat.mul_add]
    omega
  · rw [buds_append, buds_append, h.buds, h'.buds]

theorem op {i j : Instruction α} (hlacking : ∀ n, j.lacking? n = i.lacking? n)
    (hopened : openedPolygons [j] = openedPolygons [i]) : Unfolds isBud k (op i) (op j) := by
  constructor
  · intro n n' hn
    rw [lacking?_op] at hn ⊢
    rwa [hlacking]
  · rw [program_op, program_op, hopened, buds_op, Nat.mul_zero, Nat.add_zero]
  · rw [buds_op, buds_op]

theorem neutral {i : Instruction α} (hlacking : ∀ n, i.lacking? n = some n)
    (hopened : openedPolygons [i] = 0) : Unfolds isBud k [] (Word.op i) := by
  constructor
  · intro n n' hn
    rwa [lacking?_op, hlacking]
  · rw [program_op, hopened]
    rfl
  · rfl

theorem bud {p : δ α} (hp : isBud p = true) (hlacking : lacking? isBud w 0 = some 0)
    (hopened : openedPolygons w.program = k) (hbuds : Word.buds isBud w = 1) :
    Unfolds isBud k (grow p) w := by
  constructor
  · intro n n' hn
    rw [lacking?_grow] at hn
    split at hn
    next => cases hn
    next hzero =>
      obtain rfl : n = 0 := by simpa [hp] using hzero
      rwa [hlacking]
  · rw [hopened, program_grow, openedPolygons_nil, buds_grow, if_pos hp, Nat.zero_add, Nat.mul_one]
  · rw [hbuds, buds_grow, if_pos hp]

theorem filler {p : δ α} (hp : isBud p = false) (hlacking : ∀ n, lacking? isBud w n = some n)
    (hopened : openedPolygons w.program = 0) (hbuds : Word.buds isBud w = 0) :
    Unfolds isBud k (grow p) w := by
  constructor
  · intro n n' hn
    rw [lacking?_grow, hp] at hn
    rw [hlacking]
    simpa using hn
  · simp [hopened, buds_grow, hp]
  · simp [hbuds, buds_grow, hp]

end Unfolds

end Word

variable [Scalar α] {params : Store α}

theorem Word.unfolds_scaleGrowth (i : Instruction α) :
    Unfolds isBud k (op i : Word δ α) (op i.scaleGrowth) := by
  cases i with
  | grow elongation rate => cases rate <;> exact .op (fun _ => rfl) rfl
  | _ => exact .op (fun _ => rfl) rfl

variable [Dialect δ]

theorem Word.replace_unfolds {bad : Fault α → Prop}
    (hsuccessor : ∀ p, Drawing.Meets bad (Unfolds isBud k (grow p)) (Dialect.successor params p))
    (hregrow : ∀ i, Meets bad (fun j => Unfolds isBud k (op i) (op j))
      (Dialect.regrow δ params i)) (s : Symbol δ α) :
    Drawing.Meets bad (Unfolds isBud k [s]) (Derivation.replace params s) := by
  cases s with
  | production p => exact hsuccessor p
  | instruction i =>
      have hkeep : Drawing.Meets bad (Unfolds isBud k (op i))
          (Derivation.successor params (.instruction i)) :=
        (Drawing.meets_lift (hregrow i)).bind fun j hj => Drawing.meets_pure hj
      cases i with
      | reseed seed => exact fun g => ⟨fun n n' hn => hn, rfl, rfl⟩
      | _ => exact hkeep

namespace Grammar

/-- The grammar derives programs that trace `count n` triangles in `n` generations. -/
def Triangulates (g : Grammar) (params : Store α) (count : Nat → Nat) : Prop :=
  Meets (params.Excuses False) (fun r => r.2.program.foldlM Instruction.lacking? 0 = some 0 ∧
      ∃ m, params.integer "iterationNumber" = .ok m ∧
        openedPolygons r.2.program = count m.toNatClampNeg)
    (g.start params >>= derive params)

theorem triangulates {g : Grammar} (isBud : g.Production α → Bool) (opened buds k : Nat)
    {count : Nat → Nat} (hcount : ∀ n, count n = opened + k * buds * n)
    (hstart : Meets (params.Excuses False) (fun w => w.lacking? isBud 0 = some 0 ∧
      openedPolygons w.program = opened ∧ w.buds isBud = buds) (g.start params))
    (hsuccessor : ∀ p, Drawing.Meets (params.Excuses False) (Word.Unfolds isBud k (Word.grow p))
      (Dialect.successor params p))
    (hregrow : ∀ i, Meets (params.Excuses False)
      (fun j => Word.Unfolds isBud k (Word.op i) (Word.op j))
      (Dialect.regrow g.Production params i)) :
    g.Triangulates params count := by
  refine hstart.bind fun start hw => ?_
  -- every bud leaves one bud, so each generation adds as many triangles as the one before
  let inv (n : Nat) (w : Word g.Production α) : Prop := w.lacking? isBud 0 = some 0 ∧
    openedPolygons w.program = opened + k * buds * n ∧ w.buds isBud = buds
  have hstep (n : Nat) (w : Word g.Production α) (hinv : inv n w) :
      Drawing.Meets (params.Excuses False) (inv (n + 1)) (Derivation.replaceAll params w) := by
    have hnext := Derivation.replaceAll_meets .nil (fun _ _ _ _ => .append) w
      fun s _ => Word.replace_unfolds hsuccessor hregrow s
    refine fun r => (hnext r).mono (fun w' hw' => ⟨?_, ?_, ?_⟩) fun _ => id
    · exact hw'.lacking 0 0 hinv.1
    · rw [hw'.opened, hinv.2.1, hinv.2.2, Nat.mul_succ, Nat.add_assoc]
    · rw [hw'.buds, hinv.2.2]
  have hzero : inv 0 start := by simpa [inv] using hw
  refine (derive_meets inv (fun _ => Or.inl) hzero fun m hm n w _ => hstep n w).mono ?_ fun _ => id
  rintro ⟨n, w⟩ ⟨hinv, m, hm, rfl⟩
  exact ⟨Word.lacking?_program hinv.1, m, hm, hinv.2.1.trans (hcount _).symm⟩

end Grammar

namespace Cordate

def isLobe : Cordate α → Bool
  | left _ | right _ => true
  | midrib => false

theorem triangulates : grammar.Triangulates params (2 * ·) := by
  refine Grammar.triangulates isLobe 0 2 1 (fun n => by simp) ?_ ?_ ?_
  · refine Store.bind_double fun angle => Store.bind_double fun stem => ?_
    exact Meets.pure ⟨rfl, rfl, rfl⟩
  · intro p
    refine Drawing.meets_lift ?_
    cases p with
    | left direction =>
        refine Store.bind_double fun curl => Store.bind_double fun divergence => ?_
        exact Meets.pure (.bud rfl rfl rfl rfl)
    | right direction =>
        refine Store.bind_double fun curl => Store.bind_double fun divergence => ?_
        exact Meets.pure (.bud rfl rfl rfl rfl)
    | midrib =>
        refine Store.bind_double fun rate => ?_
        exact Meets.pure (.filler rfl (fun _ => rfl) rfl rfl)
  · exact fun i => Meets.pure (.op (fun _ => rfl) rfl)

end Cordate

namespace Pinnate

def isApex : Pinnate α → Bool
  | apex _ => true
  | vein _ => false

theorem fan_unfolds (lateral back left right : α) (rate rate' : Option α) (time : α) :
    let fan := fan (.grow lateral rate) (.grow back rate') (.pitch left) (.pitch right) time
    fan.lacking? isApex 0 = some 0 ∧ openedPolygons fan.program = 4 ∧ fan.buds isApex = 1 := by
  refine ⟨?_, ?_, ?_⟩
  · simp [fan, Instruction.lacking?, isApex, -List.append_assoc]
  · simp [fan, openedPolygons]
  · simp [fan, isApex]

theorem triangulates : grammar.Triangulates params (4 * ·) := by
  refine Grammar.triangulates isApex 0 1 4 (fun n => by simp) ?_ ?_ ?_
  · refine Store.bind_double fun angle => ?_
    exact Meets.pure ⟨rfl, rfl, rfl⟩
  · intro p
    refine Drawing.meets_lift ?_
    refine Store.bind_double fun length => Store.bind_double fun rate => ?_
    cases p with
    | vein potential =>
        refine Store.bind_double fun decrease => ?_
        exact Meets.pure (.filler rfl (fun _ => rfl) rfl rfl)
    | apex time =>
        refine Store.bind_double fun main => Store.bind_double fun growth => ?_
        refine Store.bind_double fun divergence => ?_
        obtain ⟨hlacking, hopened, hbuds⟩ := fan_unfolds length (-main) (-divergence) divergence
          (some rate) (some growth) time
        have hfan := Word.Unfolds.bud (p := apex time) rfl hlacking hopened hbuds
        apply Meets.pure
        split
        · exact .append (.neutral (fun _ => rfl) rfl) hfan
        · exact hfan
  · exact fun i => Meets.pure (Word.unfolds_scaleGrowth i)

end Pinnate

namespace Planar

def noBud (p : Planar α) : Bool := nomatch p

theorem half_traces (edge rate : α) : (half edge rate).lacking? noBud 0 = some 0 ∧
    openedPolygons (half edge rate).program = 1 := by
  constructor
  · simp [half, Word.polygon, Instruction.lacking?, -List.append_assoc]
  · simp [half, Word.polygon, openedPolygons]

theorem start_traces : Meets (params.Excuses False) (fun w => w.lacking? noBud 0 = some 0 ∧
    openedPolygons w.program = 2 ∧ w.buds noBud = 0) (start params) := by
  refine Store.bind_double fun edge => Store.bind_double fun rate => ?_
  refine Store.bind_double fun offset => Store.bind_double fun angle => ?_
  obtain ⟨hlacking, hopened⟩ := half_traces edge rate
  refine Meets.pure ⟨?_, ?_, ?_⟩
  · simp [Instruction.lacking?, hlacking, -List.append_assoc]
  · rw [Word.openedPolygons_append, Word.openedPolygons_branch, Word.openedPolygons_append,
      Word.openedPolygons_branch, Word.openedPolygons_append, hopened]
    rfl
  · refine List.countP_eq_zero.mpr fun s _ => ?_
    cases s with
    | instruction i => exact Bool.false_ne_true
    | production p => cases p

theorem triangulates : grammar.Triangulates params fun _ => 2 :=
  Grammar.triangulates noBud 2 0 0 (fun n => by simp) start_traces (fun p => nomatch p)
    fun i => Meets.pure (Word.unfolds_scaleGrowth i)

end Planar

def LeafSpecies.triangles : LeafSpecies → Nat → Nat
  | .cordate, generations => 2 * generations
  | .rose, generations | .simple, generations => 4 * generations
  | .planar, _ => 2

namespace Plant

theorem triangulates (leaf : Plant LeafSpecies α) :
    leaf.grammar.Triangulates leaf.parameters leaf.species.triangles := by
  obtain ⟨species, parameters⟩ := leaf
  cases species with
  | cordate => exact Cordate.triangulates
  | planar => exact Planar.triangulates
  | rose => exact Pinnate.triangulates
  | simple => exact Pinnate.triangulates

theorem grown_of_program {σ : Type} [Species σ] {p : Plant σ α} {program : List (Instruction α)}
    (h : p.program = .ok program) : ∃ r, p.grown = .ok r ∧ r.2.program = program := by
  unfold Plant.program at h
  cases hr : p.grown with
  | error fault =>
      rw [hr] at h
      cases h
  | ok r =>
      rw [hr] at h
      cases h
      exact ⟨r, rfl, rfl⟩

/-- A leaf of a known number of generations traces a known number of triangles. -/
theorem leaf_traces_triangles (leaf : Plant LeafSpecies α) {program : List (Instruction α)}
    (h : leaf.program = .ok program) :
    ∃ n : Int64, leaf.parameters.integer "iterationNumber" = .ok n ∧
      ∃ N : Nat, (N : Int) = max n.toInt 0 ∧
        ∀ pose, ∃ out, interpret program pose = .ok out ∧ out.retired = [] ∧
          (∀ p ∈ out.polygons, p.length = 3) ∧
          out.polygons.length =
            match leaf.species with
            | .cordate => 2 * N
            | .simple | .rose => 4 * N
            | .planar => 2 := by
  obtain ⟨r, hr, rfl⟩ := grown_of_program h
  have hmeets := triangulates leaf
  change Meets _ _ leaf.grown at hmeets
  rw [hr] at hmeets
  obtain ⟨hlacking, n, hn, hopened⟩ := hmeets
  refine ⟨n, hn, n.toNatClampNeg, ?_, fun pose => ?_⟩
  · exact Int.toNat_eq_max n.toInt
  · obtain ⟨out, hout⟩ := accepted leaf.leaf_sound h pose
    obtain ⟨hretired, htriangles, hcount⟩ := interpret_traces hlacking hout
    refine ⟨out, hout, hretired, htriangles, ?_⟩
    rw [hcount, hopened]
    cases leaf.species <;> rfl

theorem leaf_traces_triangles_cordate :
    let leaf : Plant LeafSpecies Float := ofSpecies .cordate
    ∃ program, leaf.program = .ok program ∧
      ∀ pose, ∃ out, interpret program pose = .ok out ∧ out.retired = [] ∧
        (∀ p ∈ out.polygons, p.length = 3) ∧ out.polygons.length = 10 := by
  intro leaf
  have hok : leaf.program.isOk = true := by decide +kernel
  cases hprogram : leaf.program with
  | error fault =>
      rw [hprogram] at hok
      cases hok
  | ok program =>
      obtain ⟨n, hn, N, hN, h⟩ := leaf_traces_triangles leaf hprogram
      obtain rfl : n = 5 := Except.ok.inj (hn.symm.trans rfl)
      obtain rfl : N = 5 := Int.ofNat_inj.mp hN
      exact ⟨program, rfl, h⟩
end Plant

end Arbor
