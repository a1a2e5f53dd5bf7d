import Arbor.Json.Printer
import Arbor.Json.Reader
import Arbor.Proofs.PrintedNumbers

namespace Arbor.Json

def Ends (rest : List Char) : Prop := ∀ c, rest.head? = some c → isWordChar c = false

def Breaks (text : List Char) : Prop := ∃ c rest, text = c :: rest ∧ isWordChar c = false

/-- The tokens of a text that needs no end. -/
def Scans (text : List Char) (ts : List Token) : Prop :=
  ∀ found rest,
    tokensFrom found .between (text ++ rest) = tokensFrom (ts.reverse ++ found) .between rest

/-- The tokens of a text that has to end. -/
def ScansWord (text : List Char) (ts : List Token) : Prop :=
  ∀ found rest, Ends rest →
    tokensFrom found .between (text ++ rest) = tokensFrom (ts.reverse ++ found) .between rest

section

variable {a b : List Char} {s t : List Token}

theorem Scans.append (ha : Scans a s) (hb : Scans b t) : Scans (a ++ b) (s ++ t) := by
  intro found rest
  rw [List.append_assoc, ha, hb, List.reverse_append, List.append_assoc]

theorem Scans.append_word (ha : Scans a s) (hb : ScansWord b t) : ScansWord (a ++ b) (s ++ t) := by
  intro found rest hends
  rw [List.append_assoc, ha, hb _ _ hends, List.reverse_append, List.append_assoc]

theorem Scans.scansWord (h : Scans a s) : ScansWord a s := fun found rest _ => h found rest

theorem ScansWord.append (ha : ScansWord a s) (hb : Scans b t) (hbreak : Breaks b) :
    Scans (a ++ b) (s ++ t) := by
  obtain ⟨c, tail, rfl, hc⟩ := hbreak
  intro found rest
  rw [List.append_assoc, ha, hb, List.reverse_append, List.append_assoc]
  intro c' hc'
  obtain rfl := Option.some.inj hc'
  exact hc

end

theorem scans_nil : Scans [] [] := fun _ _ => rfl

theorem tokensFrom_step {s next : Scan} {c : Char} {ts : List Token}
    (h : scan s c = some (ts, next)) (found : List Token) (rest : List Char) :
    tokensFrom found s (c :: rest) = tokensFrom (ts.reverse ++ found) next rest := by
  simp only [tokensFrom, h]

theorem scans_char {c : Char} {ts : List Token} (h : start? c = some (ts, .between)) :
    Scans [c] ts :=
  tokensFrom_step h

theorem scans_indent (depth : Nat) : Scans (indent depth).toList [] := by
  have hspaces (k : Nat) : Scans (List.replicate k ' ') [] := by
    induction k with
    | zero => exact scans_nil
    | succ k ih => exact (scans_char (c := ' ') rfl).append ih
  rw [indent, String.toList_append, String.toList_ofList (l := List.replicate _ _)]
  exact (scans_char (c := '\n') rfl).append (hspaces _)

theorem start?_wordChar {c : Char} (h : isWordChar c = true) : start? c = some ([], .word [c]) := by
  have hne (d : Char) (hd : isWordChar d = false) : (c == d) = false := by
    refine beq_eq_false_iff_ne.mpr ?_
    rintro rfl
    rw [hd] at h
    cases h
  rw [start?, isBlank, hne ' ' rfl, hne '\n' rfl, hne '\t' rfl, hne '\r' rfl, hne '"' rfl, h]
  rfl

theorem tokensFrom_word {word : List Char} (hchars : ∀ c ∈ word, isWordChar c = true)
    (found : List Token) (read rest : List Char) :
    tokensFrom found (.word read) (word ++ rest) =
      tokensFrom found (.word (word.reverse ++ read)) rest := by
  induction word generalizing read with
  | nil => rfl
  | cons c word ih =>
      have hscan : scan (.word read) c = some ([], .word (c :: read)) := by
        rw [scan, if_pos (hchars c List.mem_cons_self)]
      rw [List.cons_append, tokensFrom_step hscan, List.reverse_cons, List.append_assoc]
      exact ih (fun c hc => hchars c (List.mem_cons_of_mem _ hc)) (c :: read)

theorem tokensFrom_end {rest : List Char} (h : Ends rest) (found : List Token) (read : List Char) :
    tokensFrom found (.word read) rest =
      tokensFrom (.word read.reverse :: found) .between rest := by
  cases rest with
  | nil => rfl
  | cons c rest =>
      have hbetween : scan .between c = start? c := rfl
      cases hstart : start? c with
      | none =>
          have hword : scan (.word read) c = none := by
            rw [scan, if_neg (Bool.eq_false_iff.mp (h c rfl)), hstart]
            rfl
          simp only [tokensFrom, hword, hbetween, hstart]
      | some next =>
          have hword : scan (.word read) c = some (.word read.reverse :: next.1, next.2) := by
            rw [scan, if_neg (Bool.eq_false_iff.mp (h c rfl)), hstart]
            rfl
          rw [tokensFrom_step hword, tokensFrom_step (hbetween.trans hstart), List.reverse_cons,
            List.append_assoc]
          rfl

theorem ReadsAs.scansWord {word : List Char} {v : Json} (h : ReadsAs word v) :
    ScansWord word [.word word] := by
  intro found rest hends
  obtain ⟨c, tail, rfl⟩ := List.exists_cons_of_ne_nil h.nonempty
  have hscan : scan .between c = some ([], .word [c]) :=
    start?_wordChar (h.chars c List.mem_cons_self)
  rw [List.cons_append, tokensFrom_step hscan,
    tokensFrom_word fun c hc => h.chars c (List.mem_cons_of_mem _ hc), tokensFrom_end hends,
    List.reverse_append, List.reverse_reverse]
  rfl

theorem hexDigit?_hexDigit (n : Fin 16) : hexDigit? (hexDigit n) = some n.val := by
  revert n
  decide

theorem unit_control {c : Char} (h : c.toNat < 0x20) (body : Body) :
    body.unit (16 * (16 * (16 * (16 * 0 + 0) + 0) + c.toNat / 16) + c.toNat % 16) =
      body.push c := by
  have hvalue : 16 * (16 * (16 * (16 * 0 + 0) + 0) + c.toNat / 16) + c.toNat % 16 = c.toNat := by
    omega
  rw [hvalue, Body.unit, if_neg (by omega), if_neg (by omega), Char.ofNat_toNat]

theorem tokensFrom_escape (c : Char) (found : List Token) (body : Body) (rest : List Char) :
    tokensFrom found (.quoted body) (escape c ++ rest) =
      tokensFrom found (.quoted (body.push c)) rest := by
  unfold escape
  split
  next => rfl
  next => rfl
  next => rfl
  next => rfl
  next => rfl
  next => rfl
  next => rfl
  next hquote hbackslash _ _ _ _ _ =>
    split
    next hcontrol =>
      have hhigh := hexDigit?_hexDigit ⟨c.toNat / 16, by omega⟩
      have hlow := hexDigit?_hexDigit ⟨c.toNat % 16, by omega⟩
      have hzero : hexDigit? '0' = some 0 := rfl
      dsimp only at hhigh hlow
      have hopen : scan (.quoted body) '\\' = some ([], .escape body) := rfl
      have hunit : scan (.escape body) 'u' = some ([], .unit body 4 0) := rfl
      have hdigit (d : Char) (n k v : Nat) (hd : hexDigit? d = some n) :
          scan (.unit body (k + 2) v) d = some ([], .unit body (k + 1) (16 * v + n)) := by
        rw [scan, hd]
        rfl
      have hlast (d : Char) (n v : Nat) (hd : hexDigit? d = some n) :
          scan (.unit body 1 v) d = some ([], .quoted (body.unit (16 * v + n))) := by
        rw [scan, hd]
        rfl
      rw [List.cons_append, tokensFrom_step hopen, List.cons_append,
        tokensFrom_step hunit, List.cons_append,
        tokensFrom_step (hdigit _ _ _ _ hzero), List.cons_append,
        tokensFrom_step (hdigit _ _ _ _ hzero), List.cons_append,
        tokensFrom_step (hdigit _ _ _ _ hhigh), List.cons_append,
        tokensFrom_step (hlast _ _ _ hlow), unit_control hcontrol]
      rfl
    next hplain =>
      have hscan : scan (.quoted body) c = some ([], .quoted (body.push c)) := by
        rw [scan, if_neg (by simpa using hquote), if_neg (by simpa using hbackslash), if_neg hplain]
      exact tokensFrom_step hscan found rest

theorem tokensFrom_body (chars : List Char) (found : List Token) (read rest : List Char) :
    tokensFrom found (.quoted ⟨read, none, true⟩) (chars.flatMap escape ++ rest) =
      tokensFrom found (.quoted ⟨chars.reverse ++ read, none, true⟩) rest := by
  induction chars generalizing read with
  | nil => rfl
  | cons c chars ih =>
      rw [List.flatMap_cons, List.append_assoc, tokensFrom_escape, List.reverse_cons,
        List.append_assoc]
      exact ih (c :: read)

theorem scans_quote (s : String) : Scans (quote s).toList [.text (some s)] := by
  intro found rest
  have hclose : Body.close ⟨s.toList.reverse ++ [], none, true⟩ = some s := by
    rw [Body.close, List.append_nil, List.reverse_reverse, String.ofList_toList]
    rfl
  have hopen : scan .between '"' = some ([], .quoted {}) := rfl
  rw [quote, String.toList_ofList, List.cons_append, List.cons_append, tokensFrom_step hopen,
    List.append_assoc, tokensFrom_body, ← hclose]
  rfl

open Assembly

theorem pushAll_step {a next : Assembly} {t : Token} (h : a.push t = some next)
    (more : List Token) : pushAll (t :: more) a = pushAll more next := by
  rw [pushAll, h]

structure Assembles (ts : List Token) (v : Json) : Prop where
  opens : ∃ t rest, ts = t :: rest ∧ t ≠ .closeList
  value : ∀ frames more, pushAll (ts ++ more) ⟨frames, .value⟩ = pushAll more (deliver frames v)

theorem assembles_word {word : List Char} {v : Json} (h : ReadsAs word v) :
    Assembles [.word word] v where
  opens := ⟨_, _, rfl, Token.noConfusion⟩
  value frames more := by
    refine pushAll_step ?_ more
    change (ofWord? word).map (deliver frames) = _
    rw [h.value]
    rfl

theorem assembles_text (s : String) : Assembles [.text (some s)] (.text s) where
  opens := ⟨_, _, rfl, Token.noConfusion⟩
  value _ more := pushAll_step rfl more

def ReadsAt (depth : Nat) (v : Json) : Prop :=
  ∃ ts, ScansWord (prettyAt depth v).toList ts ∧ Assembles ts v

theorem ReadsAs.readsAt {depth : Nat} {v : Json} (h : ReadsAs (prettyAt depth v).toList v) :
    ReadsAt depth v := ⟨_, h.scansWord, assembles_word h⟩

theorem breaks_indent (depth : Nat) (rest : List Char) : Breaks ((indent depth).toList ++ rest) :=
  ⟨'\n', _, by rw [indent, String.toList_append]; rfl, rfl⟩

/-- How items are printed and put together: their texts, and the assembly where an item is due and
where one has been read, with the entries of the items so far, last first. -/
structure Container (ι ε : Type) where
  left : Char
  right : Char
  item : Nat → ι → List Char
  tail : Nat → List ι → List Char
  opening : Token
  closing : Token
  first : Mode
  due : List Frame → List ε → Assembly
  filled : List Frame → List ε → Assembly
  entry : ι → ε
  value : List ε → Json
  tail_nil : ∀ depth, tail depth [] = []
  tail_cons : ∀ depth x xs, tail depth (x :: xs) =
    [','] ++ ((indent depth).toList ++ (item depth x ++ tail depth xs))
  scan_left : start? left = some ([opening], .between)
  scan_right : start? right = some ([closing], .between)
  opens : opening ≠ .closeList
  push_opening : ∀ frames, push ⟨frames, .value⟩ opening = some ⟨frames, first⟩
  push_comma : ∀ frames done, (filled frames done).push .comma = some (due frames done)
  push_closing : ∀ frames done,
    (filled frames done).push closing = some (deliver frames (value done.reverse))
  push_bare : ∀ frames, push ⟨frames, first⟩ closing = some (deliver frames (value []))

namespace Container

variable {ι ε : Type} (c : Container ι ε)

/-- Tokens that add the entry of an item, behind a comma and as well behind the opening. -/
structure Takes (x : ι) (ts : List Token) : Prop where
  starts : ∃ t rest, ts = t :: rest ∧ ∀ frames, push ⟨frames, c.first⟩ t = (c.due frames []).push t
  adds : ∀ frames done more,
    pushAll (ts ++ more) (c.due frames done) = pushAll more (c.filled frames (c.entry x :: done))

def ItemReadsAt (depth : Nat) (x : ι) : Prop :=
  ∃ ts, ScansWord (c.item depth x) ts ∧ c.Takes x ts

variable {c} {depth : Nat}

theorem Takes.first {x : ι} {ts : List Token} (h : c.Takes x ts) (frames : List Frame)
    (more : List Token) :
    pushAll (ts ++ more) ⟨frames, c.first⟩ = pushAll more (c.filled frames [c.entry x]) := by
  refine Eq.trans ?_ (h.adds frames [] more)
  obtain ⟨t, rest, rfl, hstarts⟩ := h.starts
  simp only [List.cons_append, pushAll, hstarts]

theorem tail_reads {xs : List ι} (h : ∀ x ∈ xs, c.ItemReadsAt (depth + 1) x) :
    ∃ ts, Scans (c.tail (depth + 1) xs ++ ((indent depth).toList ++ [c.right])) ts ∧
      Breaks (c.tail (depth + 1) xs ++ ((indent depth).toList ++ [c.right])) ∧
      ∀ frames done more, pushAll (ts ++ more) (c.filled frames done) =
        pushAll more (deliver frames (c.value (done.reverse ++ xs.map c.entry))) := by
  induction xs with
  | nil =>
      rw [c.tail_nil]
      refine ⟨[] ++ [c.closing], (scans_indent depth).append (scans_char c.scan_right),
        breaks_indent depth _, fun frames done more => ?_⟩
      rw [List.map_nil, List.append_nil]
      exact pushAll_step (c.push_closing frames done) more
  | cons x xs ih =>
      obtain ⟨rest, hrest, hbreak, hrun⟩ := ih fun x hx => h x (List.mem_cons_of_mem _ hx)
      obtain ⟨ts, hscans, htakes⟩ := h x List.mem_cons_self
      rw [c.tail_cons]
      simp only [List.append_assoc]
      refine ⟨[.comma] ++ ([] ++ (ts ++ rest)), (scans_char rfl).append
        ((scans_indent _).append (hscans.append hrest hbreak)), ⟨',', _, rfl, rfl⟩,
        fun frames done more => ?_⟩
      calc pushAll ([.comma] ++ ([] ++ (ts ++ rest)) ++ more) (c.filled frames done)
          = pushAll (ts ++ rest ++ more) (c.due frames done) :=
            pushAll_step (c.push_comma frames done) _
        _ = pushAll (rest ++ more) (c.filled frames (c.entry x :: done)) := by
            rw [List.append_assoc, htakes.adds]
        _ = pushAll more (deliver frames (c.value (done.reverse ++ (x :: xs).map c.entry))) := by
            rw [hrun, List.reverse_cons, List.append_assoc, List.map_cons]
            rfl

theorem items_read {x : ι} {xs : List ι} (h : ∀ y ∈ x :: xs, c.ItemReadsAt (depth + 1) y) :
    ∃ ts, ScansWord ([c.left] ++ ((indent (depth + 1)).toList ++ (c.item (depth + 1) x ++
        (c.tail (depth + 1) xs ++ ((indent depth).toList ++ [c.right]))))) ts ∧
      Assembles ts (c.value ((x :: xs).map c.entry)) := by
  obtain ⟨ts, hscans, htakes⟩ := h x List.mem_cons_self
  obtain ⟨rest, hrest, hbreak, hrun⟩ := tail_reads fun y hy => h y (List.mem_cons_of_mem _ hy)
  refine ⟨[c.opening] ++ ([] ++ (ts ++ rest)), ((scans_char c.scan_left).append
    ((scans_indent _).append (hscans.append hrest hbreak))).scansWord, ⟨_, _, rfl, c.opens⟩,
    fun frames more => ?_⟩
  calc pushAll ([c.opening] ++ ([] ++ (ts ++ rest)) ++ more) ⟨frames, .value⟩
      = pushAll (ts ++ rest ++ more) ⟨frames, c.first⟩ := pushAll_step (c.push_opening frames) _
    _ = pushAll (rest ++ more) (c.filled frames [c.entry x]) := by
        rw [List.append_assoc, htakes.first]
    _ = pushAll more (deliver frames (c.value ((x :: xs).map c.entry))) := hrun frames _ more

variable (c) in
theorem bare_reads : ∃ ts, ScansWord [c.left, c.right] ts ∧ Assembles ts (c.value []) := by
  refine ⟨[c.opening] ++ [c.closing],
    ((scans_char c.scan_left).append (scans_char c.scan_right)).scansWord, ⟨_, _, rfl, c.opens⟩,
    fun frames more => ?_⟩
  calc pushAll ([c.opening] ++ [c.closing] ++ more) ⟨frames, .value⟩
      = pushAll (c.closing :: more) ⟨frames, c.first⟩ := pushAll_step (c.push_opening frames) _
    _ = pushAll more (deliver frames (c.value [])) := pushAll_step (c.push_bare frames) more

def list : Container Json Json where
  left := '['
  right := ']'
  item depth v := (prettyAt depth v).toList
  tail depth vs := (prettyElements depth vs).toList
  opening := .openList
  closing := .closeList
  first := .firstElement
  due frames done := ⟨.list done :: frames, .value⟩
  filled frames done := ⟨frames, .afterElement done⟩
  entry := id
  value := .list
  tail_nil depth := by rw [prettyElements]; rfl
  tail_cons depth v vs := by
    rw [prettyElements]
    simp only [String.toList_append, List.append_assoc]
    rfl
  scan_left := rfl
  scan_right := rfl
  opens := Token.noConfusion
  push_opening _ := rfl
  push_comma _ _ := rfl
  push_closing _ _ := rfl
  push_bare _ := rfl

def record : Container (String × Json) (Option String × Json) where
  left := '\x7b'
  right := '\x7d'
  item depth f := (quote f.1).toList ++ (": ".toList ++ (prettyAt depth f.2).toList)
  tail depth fs := (prettyFields depth fs).toList
  opening := .openRecord
  closing := .closeRecord
  first := .firstKey
  due frames done := ⟨frames, .key done⟩
  filled frames done := ⟨frames, .afterField done⟩
  entry f := (some f.1, f.2)
  value := ofReadFields
  tail_nil depth := by rw [prettyFields]; rfl
  tail_cons depth f fs := by
    rw [prettyFields]
    simp only [String.toList_append, List.append_assoc]
    rfl
  scan_left := rfl
  scan_right := rfl
  opens := Token.noConfusion
  push_opening _ := rfl
  push_comma _ _ := rfl
  push_closing _ _ := rfl
  push_bare _ := rfl

theorem list_itemReadsAt {v : Json} (h : ReadsAt depth v) : list.ItemReadsAt depth v := by
  obtain ⟨ts, hscans, hv⟩ := h
  refine ⟨ts, hscans, ?_, fun frames done => hv.value (.list done :: frames)⟩
  obtain ⟨t, rest, rfl, hopens⟩ := hv.opens
  refine ⟨t, rest, rfl, fun frames => ?_⟩
  cases t with
  | closeList => exact absurd rfl hopens
  | _ => rfl

theorem record_itemReadsAt {f : String × Json} (h : ReadsAt depth f.2) :
    record.ItemReadsAt depth f := by
  obtain ⟨ts, hscans, hv⟩ := h
  have hfield : ScansWord (record.item depth f) ([.text (some f.1)] ++ ([.colon] ++ ([] ++ ts))) :=
    (scans_quote f.1).append_word
      ((scans_char (c := ':') rfl).append_word ((scans_char (c := ' ') rfl).append_word hscans))
  refine ⟨_, hfield, ⟨_, _, rfl, fun _ => rfl⟩, fun frames done more => ?_⟩
  calc pushAll (.text (some f.1) :: .colon :: (ts ++ more)) ⟨frames, .key done⟩
      = pushAll (.colon :: (ts ++ more)) ⟨frames, .colon done (some f.1)⟩ := pushAll_step rfl _
    _ = pushAll (ts ++ more) ⟨.record done (some f.1) :: frames, .value⟩ := pushAll_step rfl _
    _ = pushAll more ⟨frames, .afterField ((some f.1, f.2) :: done)⟩ := hv.value _ _

end Container

theorem mapM_map_eq_some {ι κ : Type} {read : κ → Option ι} {write : ι → κ}
    (h : ∀ x, read (write x) = some x) (xs : List ι) : (xs.map write).mapM read = some xs := by
  induction xs with
  | nil => rfl
  | cons x xs ih =>
      rw [List.map_cons, List.mapM_cons, h, ih]
      rfl

theorem ofReadFields_entries (fs : List (String × Json)) :
    ofReadFields (fs.map Container.record.entry) = .record fs := by
  rw [ofReadFields, mapM_map_eq_some fun f => ?_]
  rfl

theorem readsAt_list {depth : Nat} {vs : List Json} (h : ∀ v ∈ vs, ReadsAt (depth + 1) v) :
    ReadsAt depth (.list vs) := by
  cases vs with
  | nil =>
      rw [ReadsAt, prettyAt]
      exact Container.list.bare_reads
  | cons v vs =>
      have htext : (prettyAt depth (.list (v :: vs))).toList =
          ['['] ++ ((indent (depth + 1)).toList ++ ((prettyAt (depth + 1) v).toList ++
            ((prettyElements (depth + 1) vs).toList ++ ((indent depth).toList ++ [']'])))) := by
        rw [prettyAt]
        simp only [String.toList_append, List.append_assoc]
        rfl
      rw [ReadsAt, htext, ← List.map_id (v :: vs)]
      exact Container.items_read fun v hv => Container.list_itemReadsAt (h v hv)

theorem readsAt_record {depth : Nat} {fs : List (String × Json)}
    (h : ∀ f ∈ fs, ReadsAt (depth + 1) f.2) : ReadsAt depth (.record fs) := by
  cases fs with
  | nil =>
      rw [ReadsAt, prettyAt]
      exact Container.record.bare_reads
  | cons f fs =>
      have htext : (prettyAt depth (.record (f :: fs))).toList =
          ['\x7b'] ++ ((indent (depth + 1)).toList ++
            (((quote f.1).toList ++ (": ".toList ++ (prettyAt (depth + 1) f.2).toList)) ++
              ((prettyFields (depth + 1) fs).toList ++ ((indent depth).toList ++ ['\x7d'])))) := by
        rw [prettyAt]
        simp only [String.toList_append, List.append_assoc]
        rfl
      rw [ReadsAt, htext, ← ofReadFields_entries (f :: fs)]
      exact Container.items_read fun f hf => Container.record_itemReadsAt (h f hf)

inductive Printable : Json → Prop where
  | null : Printable .null
  | bool (b : Bool) : Printable (.bool b)
  | integer {n : Int} (lower : Int64.minValue.toInt ≤ n) (upper : n < UInt64.size) :
      Printable (.integer n)
  | double {x : Float} (finite : x.isFinite = true) : Printable (.double x)
  | text (s : String) : Printable (.text s)
  | list {vs : List Json} (elements : ∀ v ∈ vs, Printable v) : Printable (.list vs)
  | record {fs : List (String × Json)} (fields : ∀ f ∈ fs, Printable f.2) : Printable (.record fs)

theorem Printable.readsAt {v : Json} (h : Printable v) (depth : Nat) : ReadsAt depth v := by
  induction h generalizing depth with
  | null =>
      refine ReadsAs.readsAt ?_
      rw [prettyAt]
      exact readsAs_null
  | bool b =>
      refine ReadsAs.readsAt ?_
      rw [prettyAt]
      exact readsAs_bool b
  | integer lower upper =>
      refine ReadsAs.readsAt ?_
      rw [prettyAt]
      exact readsAs_integer lower upper
  | double finite =>
      refine ReadsAs.readsAt ?_
      rw [prettyAt]
      exact readsAs_double finite
  | text s =>
      refine ⟨_, ?_, assembles_text s⟩
      rw [prettyAt]
      exact (scans_quote s).scansWord
  | list _ ih => exact readsAt_list fun v hv => ih v hv (depth + 1)
  | record _ ih => exact readsAt_record fun f hf => ih f hf (depth + 1)

/-- A printed document is read as the value that was printed. -/
theorem parse?_pretty {v : Json} (h : Printable v) : parse? v.pretty = some v := by
  obtain ⟨ts, hscans, hassembles⟩ := h.readsAt 0
  have htokens : tokens? v.pretty = some ts := by
    have hscan := hscans [] [] nofun
    rw [List.append_nil, List.append_nil] at hscan
    refine hscan.trans ?_
    rw [tokensFrom, List.reverse_reverse]
  have hpush := hassembles.value [] []
  rw [List.append_nil] at hpush
  rw [parse?, htokens]
  dsimp only
  rw [hpush]
  rfl

end Arbor.Json
