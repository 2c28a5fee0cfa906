import ScriptMachine.Convert
import ScriptMachine.Proofs.Containers.Basic

/-!
# Host data written and read

Data that a host hands over as a value is read back as it was: `HostType.ofValue_toValue`. An option may
stand only around a shape whose data are never null, since `none` is written as null, and the keys of a
map are all different.

What a value has to be for a shape is a list of parts (`HostType.parts`): the value itself, then the
elements and entries in their order, each followed by its own. Reading goes through them in that order and
stops at the first one of a kind that its shape does not accept; the error names the place of that part in
the container around it (`HostType.ofValue_parts`).

The result is `HostType.reads_what_is_accepted`.
-/

namespace ScriptMachine

/-! ## Heaps that grow -/

/-- All arrays and ordered maps of one heap are in another one. -/
structure Heap.Extends (h h' : Heap) : Prop where
  arrays : ∀ (r : Ref) (a : Array Value), h.arrays[r]? = some a → h'.arrays[r]? = some a
  maps : ∀ (r : Ref) (d : Dict Key Value), h.maps[r]? = some d → h'.maps[r]? = some d

namespace Heap.Extends

variable {h h₁ h₂ : Heap}

theorem refl (h : Heap) : h.Extends h := ⟨fun _ _ hr => hr, fun _ _ hr => hr⟩

theorem trans (h₀ : h.Extends h₁) (h₁ : h₁.Extends h₂) : h.Extends h₂ :=
  ⟨fun r a hr => h₁.arrays r a (h₀.arrays r a hr), fun r d hr => h₁.maps r d (h₀.maps r d hr)⟩

theorem newArray (h : Heap) (vs : Array Value) : h.Extends (h.newArray vs).2 :=
  ⟨fun _ _ hr => by
    have hlt := (Array.getElem?_eq_some_iff.mp hr).1
    exact (Array.getElem?_push_lt hlt).trans (Array.getElem?_eq_getElem hlt ▸ hr), fun _ _ hr => hr⟩

theorem newMap (h : Heap) (d : Dict Key Value) : h.Extends (h.newMap d).2 :=
  ⟨fun _ _ hr => hr, fun _ _ hr => by
    have hlt := (Array.getElem?_eq_some_iff.mp hr).1
    exact (Array.getElem?_push_lt hlt).trans (Array.getElem?_eq_getElem hlt ▸ hr)⟩

theorem array_newArray {vs : Array Value} (he : (h.newArray vs).2.Extends h₁) :
    h₁.array h.arrays.size = vs := by
  have hget := he.arrays h.arrays.size vs Array.getElem?_push_size
  rw [Heap.array, hget]
  rfl

theorem map_newMap {d : Dict Key Value} (he : (h.newMap d).2.Extends h₁) : h₁.map h.maps.size = d := by
  have hget := he.maps h.maps.size d Array.getElem?_push_size
  rw [Heap.map, hget]
  rfl

end Heap.Extends

namespace HostType

/-! ## Written and read back -/

/-- No data of the shape are written as null. -/
def NeverNull (t : HostType) : Prop := ∀ (h : Heap) (x : t.Data), (t.toValue h x).1 ≠ .null

/-- Options stand only around shapes whose data are never null. -/
def Lossless : HostType → Prop
  | .option t => t.NeverNull ∧ t.Lossless
  | .list t | .map t => t.Lossless
  | _ => True

/-- In every map the keys are all different. -/
def Keyed : (t : HostType) → t.Data → Prop
  | .option t, (x : Option t.Data) => ∀ a ∈ x, t.Keyed a
  | .list t, (xs : List t.Data) => ∀ x ∈ xs, t.Keyed x
  | .map t, (es : List (String × t.Data)) => (es.map (·.1)).Nodup ∧ ∀ e ∈ es, t.Keyed e.2
  | _, _ => True

/-- The shapes whose data are never written as null are those that are not null, an option or any value. -/
theorem neverNull_iff (t : HostType) :
    t.NeverNull ↔ t ≠ .value ∧ t ≠ .unit ∧ ∀ u, t ≠ .option u := by
  cases t with
  | value => simpa using fun h => h .empty Value.null rfl
  | unit => simpa using fun h => h .empty () rfl
  | option u => simpa using fun h => h .empty (none : Option u.Data) rfl
  | _ => simp [NeverNull, toValue, Heap.newArray, Heap.newMap]

theorem ofValue_option {t : HostType} (h : Heap) {v : Value} (hv : v ≠ .null) :
    (HostType.option t).ofValue h v = (t.ofValue h v).map some := by
  cases v with
  | null => exact (hv rfl).elim
  | _ => rfl

/-- The value is read as `x` in this heap and in all that extend it. -/
def Holds (t : HostType) (h : Heap) (v : Value) (x : t.Data) : Prop :=
  ∀ h', h.Extends h' → t.ofValue h' v = .ok x

theorem Holds.mono {t : HostType} {h h' : Heap} {v : Value} {x : t.Data} (hv : t.Holds h v x)
    (he : h.Extends h') : t.Holds h' v x := fun _ he' => hv _ (he.trans he')

/-- Elements are written one after the other, and those written first stay as they are. -/
theorem writeAll_holds {t : HostType} {xs : List t.Data}
    (hx : ∀ x ∈ xs, ∀ h, h.Extends (t.toValue h x).2 ∧ t.Holds (t.toValue h x).2 (t.toValue h x).1 x)
    (h : Heap) : h.Extends (writeAll t.toValue h xs).2 ∧
      List.Forall₂ (t.Holds (writeAll t.toValue h xs).2) (writeAll t.toValue h xs).1 xs := by
  induction xs generalizing h with
  | nil => exact ⟨.refl h, .nil⟩
  | cons x xs ih =>
    obtain ⟨hfirst, hholds⟩ := hx x List.mem_cons_self h
    obtain ⟨hrest, hall⟩ := ih (fun y hy => hx y (List.mem_cons_of_mem _ hy)) (t.toValue h x).2
    exact ⟨hfirst.trans hrest, .cons (hholds.mono hrest) hall⟩

theorem readElements_holds {t : HostType} {h : Heap} {vs : List Value} {xs : List t.Data}
    (hall : List.Forall₂ (t.Holds h) vs xs) (index : Nat) {h' : Heap} (he : h.Extends h') :
    readElements (t.ofValue h') index vs = .ok xs := by
  induction hall generalizing index with
  | nil => rfl
  | cons hv _ ih => simp only [readElements, hv h' he, ih]

theorem list_holds {t : HostType} {xs : List t.Data}
    (hx : ∀ x ∈ xs, ∀ h, h.Extends (t.toValue h x).2 ∧ t.Holds (t.toValue h x).2 (t.toValue h x).1 x)
    (h : Heap) : h.Extends ((HostType.list t).toValue h xs).2 ∧
      (HostType.list t).Holds ((HostType.list t).toValue h xs).2 ((HostType.list t).toValue h xs).1 xs := by
  obtain ⟨hextends, hall⟩ := writeAll_holds hx h
  refine ⟨hextends.trans (.newArray _ _), fun h' he => ?_⟩
  show readElements (t.ofValue h') 0 (h'.array _).toList = .ok xs
  rw [Heap.Extends.array_newArray he]
  exact readElements_holds hall 0 ((Heap.Extends.newArray _ _).trans he)

theorem readEntries_holds {t : HostType} {h : Heap} {vs : List Value} {es : List (String × t.Data)}
    (hall : List.Forall₂ (t.Holds h) vs (es.map (·.2))) {h' : Heap} (he : h.Extends h') :
    readEntries (t.ofValue h') ((es.map fun e => Key.str e.1).zip vs) = .ok es := by
  induction es generalizing vs with
  | nil => simp [readEntries]
  | cons e es ih =>
    cases hall with
    | cons hv hall =>
      simp only [List.map_cons, List.zip_cons_cons, readEntries, hv h' he, ih hall]

/-- Names that are all different get an entry each. -/
theorem toList_ofList_names {names : List String} (hnodup : names.Nodup) (vs : List Value) :
    (Dict.ofList ((names.map Key.str).zip vs)).toList = (names.map Key.str).zip vs := by
  refine Dict.toList_ofList ?_
  induction names generalizing vs with
  | nil => simp
  | cons name names ih =>
    cases vs with
    | nil => simp
    | cons v vs =>
      obtain ⟨hname, hnodup⟩ := List.nodup_cons.mp hnodup
      refine List.pairwise_cons.mpr ⟨fun e he => ?_, ih hnodup vs⟩
      have hmem := (List.of_mem_zip (show (e.1, e.2) ∈ (names.map Key.str).zip vs from he)).1
      obtain ⟨other, hother, hkey⟩ := List.mem_map.mp hmem
      have hne : name ≠ other := fun heq => hname (heq ▸ hother)
      rw [← hkey]
      show (name == other) = false
      exact beq_eq_false_iff_ne.mpr hne

theorem map_holds {t : HostType} {es : List (String × t.Data)} (hnodup : (es.map (·.1)).Nodup)
    (hx : ∀ x ∈ es.map (·.2), ∀ h,
      h.Extends (t.toValue h x).2 ∧ t.Holds (t.toValue h x).2 (t.toValue h x).1 x)
    (h : Heap) : h.Extends ((HostType.map t).toValue h es).2 ∧
      (HostType.map t).Holds ((HostType.map t).toValue h es).2 ((HostType.map t).toValue h es).1 es := by
  obtain ⟨hextends, hall⟩ := writeAll_holds hx h
  refine ⟨hextends.trans (.newMap _ _), fun h' he => ?_⟩
  have hentries := toList_ofList_names hnodup (writeAll t.toValue h (es.map (·.2))).1
  rw [List.map_map, Function.comp_def] at hentries
  show readEntries (t.ofValue h') (h'.map _).toList = .ok es
  rw [Heap.Extends.map_newMap he, hentries]
  exact readEntries_holds hall ((Heap.Extends.newMap _ _).trans he)

/-- Data are read back as they were, in the heap that has them and in all that extend it. -/
theorem toValue_holds {t : HostType} (ht : t.Lossless) {x : t.Data} (hx : t.Keyed x) (h : Heap) :
    h.Extends (t.toValue h x).2 ∧ t.Holds (t.toValue h x).2 (t.toValue h x).1 x := by
  induction t generalizing h with
  | option t ih =>
    obtain ⟨hnull, ht⟩ := ht
    match x with
    | none => exact ⟨.refl h, fun _ _ => rfl⟩
    | some a =>
      obtain ⟨hextends, hholds⟩ := ih ht (hx a rfl) h
      refine ⟨hextends, fun h' he => ?_⟩
      have hread : t.ofValue h' (t.toValue h a).1 = .ok a := hholds h' he
      show (HostType.option t).ofValue h' (t.toValue h a).1 = .ok (some a)
      rw [ofValue_option h' (hnull h a), hread]
      rfl
  | list t ih => exact list_holds (fun y hy => ih ht (hx y hy)) h
  | map t ih =>
    obtain ⟨hnodup, hkeyed⟩ := hx
    refine map_holds hnodup (fun y hy => ?_) h
    obtain ⟨e, he, rfl⟩ := List.mem_map.mp hy
    exact ih ht (hkeyed e he)
  | _ => exact ⟨.refl h, fun _ _ => rfl⟩

/-! ## Parts of a value -/

/-- Where a value stands that has to be read. -/
inductive Spot where
  | whole
  | element (index : Nat)
  | entry (key : String)
deriving DecidableEq, Repr

/-- Say in an error where the value stands, unless it says so already. -/
def Spot.locate : Spot → ConversionError → ConversionError
  | .whole, e => e
  | .element index, e => e.inElement index
  | .entry key, e => e.inEntry key

/-- Something that has to be read: where it stands, as what, and the value. -/
structure Part where
  spot : Spot
  type : HostType
  value : Value

/-- Whether the shape is read from values of this kind, whatever they hold. -/
def accepts : HostType → Value → Bool
  | .value, _ => true
  | .int, .int _ => true
  | .float, .float _ | .float, .int _ => true
  | .bool, .bool _ => true
  | .string, .str _ => true
  | .unit, .null => true
  | .option _, .null => true
  | .option t, v => t.accepts v
  | .list _, .array _ => true
  | .map _, .map _ | .map _, .hash _ => true
  | _, _ => false

/-- The kind of values that a shape is read from, as named in messages. -/
def expected : HostType → String
  | .value => "value"
  | .int => "integer"
  | .float => "float"
  | .bool => "boolean"
  | .string => "string"
  | .unit => "null"
  | .option t => t.expected
  | .list _ => "array"
  | .map _ => "map"

namespace Part

def isRefused (p : Part) : Bool := !p.type.accepts p.value

/-- The error that names a part. -/
def error (p : Part) : ConversionError :=
  p.spot.locate (.mismatch p.type.expected p.value.typeName)

end Part

/-- The elements of an array, with their places. -/
def elements (h : Heap) : Value → List (Spot × Value)
  | .array r => (h.array r).toList.zipIdx.map fun e => (.element e.2, e.1)
  | _ => []

/-- The entries that have strings as keys. -/
def named (es : List (Key × Value)) : List (Spot × Value) :=
  es.filterMap fun e =>
    match e with
    | (.str key, v) => some (.entry key, v)
    | _ => none

/-- The entries of a map, with their places; those whose keys are no strings do not count. -/
def entries (h : Heap) : Value → List (Spot × Value)
  | .map r => named (h.map r).toList
  | .hash r => named (h.hash r).toList
  | _ => []

/-- All that has to be read for data of a shape: the value first, then its items in their order, each
followed by its own. -/
def parts (h : Heap) : HostType → Spot → Value → List Part
  | .option t, spot, v =>
    match v with
    | .null => []
    | v => t.parts h spot v
  | .list t, spot, v => ⟨spot, .list t, v⟩ :: (elements h v).flatMap fun e => t.parts h e.1 e.2
  | .map t, spot, v => ⟨spot, .map t, v⟩ :: (entries h v).flatMap fun e => t.parts h e.1 e.2
  | t, spot, v => [⟨spot, t, v⟩]

/-- Reading succeeded and all parts are accepted, or it failed with the error of the first one that is
not; where the value itself stands is still to be said. -/
def Agrees {α : Type} (spot : Spot) (r : Except ConversionError α) (ps : List Part) : Prop :=
  match r with
  | .ok _ => ps.find? Part.isRefused = none
  | .error e => ∃ p, ps.find? Part.isRefused = some p ∧ p.error = spot.locate e

/-- What is said of an item is not said again of what it stands in. -/
theorem Spot.locate_inElement (spot : Spot) (e : ConversionError) (index : Nat) :
    spot.locate (e.inElement index) = e.inElement index := by
  cases spot <;> cases e <;> rfl

theorem Spot.locate_inEntry (spot : Spot) (e : ConversionError) (key : String) :
    spot.locate (e.inEntry key) = e.inEntry key := by
  cases spot <;> cases e <;> rfl

section

variable {α : Type} {h : Heap} {t : HostType} {f : Value → Except ConversionError α}

/-- The first item that cannot be read decides. -/
theorem Agrees.stop {β : Type} {spot spot' : Spot} {e : ConversionError} {ps : List Part}
    (hr : Agrees (α := β) spot' (.error e) ps)
    (hlocate : ∀ e, spot.locate (spot'.locate e) = spot'.locate e) (qs : List Part) :
    Agrees (α := α) spot (.error (spot'.locate e)) (ps ++ qs) := by
  obtain ⟨p, hp, herror⟩ := hr
  refine ⟨p, ?_, herror.trans (hlocate e).symm⟩
  rw [List.find?_append, hp]
  rfl

/-- After an item that was read the others decide. -/
theorem Agrees.skip {β : Type} {spot spot' : Spot} {a : β} {r : Except ConversionError α}
    {ps qs : List Part} (ha : Agrees spot' (.ok a) ps) (hr : Agrees spot r qs) :
    Agrees spot r (ps ++ qs) := by
  have hnone : ps.find? Part.isRefused = none := ha
  unfold Agrees at hr ⊢
  rw [List.find?_append, hnone, Option.none_or]
  exact hr

theorem Agrees.map {β : Type} {spot : Spot} {r : Except ConversionError β} {ps : List Part}
    (hr : Agrees spot r ps) (g : β → α) : Agrees spot (r.map g) ps := by
  cases r with
  | error e => exact hr
  | ok a => exact hr

theorem readElements_cons {v : Value} {vs : List Value} {index : Nat} {a : α} (hv : f v = .ok a) :
    readElements f index (v :: vs) = (readElements f (index + 1) vs).map (a :: ·) := by
  rw [readElements, hv]
  cases readElements f (index + 1) vs <;> rfl

theorem readEntries_cons {v : Value} {es : List (Key × Value)} {key : String} {a : α} (hv : f v = .ok a) :
    readEntries f ((.str key, v) :: es) = (readEntries f es).map ((key, a) :: ·) := by
  rw [readEntries, hv]
  cases readEntries f es <;> rfl

theorem readElements_agrees (hf : ∀ spot v, Agrees spot (f v) (t.parts h spot v)) (spot : Spot)
    (index : Nat) (vs : List Value) : Agrees spot (readElements f index vs)
      (((vs.zipIdx index).map fun e => (Spot.element e.2, e.1)).flatMap fun e => t.parts h e.1 e.2) := by
  induction vs generalizing index with
  | nil => exact rfl
  | cons v vs ih =>
    have hv := hf (.element index) v
    rw [List.zipIdx_cons, List.map_cons, List.flatMap_cons]
    cases hread : f v with
    | error e =>
      rw [hread] at hv
      rw [readElements, hread]
      exact hv.stop (fun e => spot.locate_inElement e index) _
    | ok a =>
      rw [hread] at hv
      rw [readElements_cons hread]
      exact hv.skip ((ih (index + 1)).map _)

theorem readEntries_agrees (hf : ∀ spot v, Agrees spot (f v) (t.parts h spot v)) (spot : Spot)
    (es : List (Key × Value)) : Agrees spot (readEntries f es)
      ((named es).flatMap fun e => t.parts h e.1 e.2) := by
  induction es with
  | nil => exact rfl
  | cons e es ih =>
    obtain ⟨key, v⟩ := e
    cases key with
    | str key =>
      have hv := hf (.entry key) v
      rw [show named ((.str key, v) :: es) = (.entry key, v) :: named es from rfl, List.flatMap_cons]
      cases hread : f v with
      | error e =>
        rw [hread] at hv
        rw [readEntries, hread]
        exact hv.stop (fun e => spot.locate_inEntry e key) _
      | ok a =>
        rw [hread] at hv
        rw [readEntries_cons hread]
        exact hv.skip (ih.map _)
    | _ => exact ih

theorem ofValue_agrees (h : Heap) (t : HostType) (spot : Spot) (v : Value) :
    Agrees spot (t.ofValue h v) (t.parts h spot v) := by
  induction t generalizing spot v with
  | option t ih =>
    by_cases hv : v = .null
    · subst hv
      exact rfl
    · have hparts : (HostType.option t).parts h spot v = t.parts h spot v := by
        cases v with
        | null => exact (hv rfl).elim
        | _ => rfl
      rw [ofValue_option h hv, hparts]
      exact (ih spot v).map some
  | list t ih =>
    cases v with
    | array r => exact readElements_agrees ih spot 0 _
    | _ => exact ⟨_, rfl, rfl⟩
  | map t ih =>
    cases v with
    | map r => exact readEntries_agrees ih spot _
    | hash r => exact readEntries_agrees ih spot _
    | _ => exact ⟨_, rfl, rfl⟩
  | value => exact rfl
  | _ =>
    cases v with
    | _ => first | exact rfl | exact ⟨_, rfl, rfl⟩

end

/-! ## Results -/

/-- Host data are read back as they were written, with elements and keys in their order. A value cannot
be read as data of a shape if and only if a part of it is of a kind that is not accepted there, and the
error names the first such part. -/
theorem reads_what_is_accepted (t : HostType) :
    (t.Lossless → ∀ (h : Heap) (x : t.Data), t.Keyed x →
      t.ofValue (t.toValue h x).2 (t.toValue h x).1 = .ok x) ∧
    ∀ (h : Heap) (v : Value),
      ((∃ e, t.ofValue h v = .error e) ↔ ∃ p ∈ t.parts h .whole v, p.type.accepts p.value = false) ∧
      ∀ e, t.ofValue h v = .error e →
        ∃ before p after, t.parts h .whole v = before ++ p :: after ∧
          (∀ q ∈ before, q.type.accepts q.value = true) ∧ p.type.accepts p.value = false ∧
          e = p.error := by
  refine ⟨fun ht h x hx => (toValue_holds ht hx h).2 _ (.refl _), fun h v => ?_⟩
  have hagrees := ofValue_agrees h t .whole v
  cases hread : t.ofValue h v with
  | ok x =>
    rw [hread] at hagrees
    have hall : (t.parts h .whole v).find? Part.isRefused = none := hagrees
    rw [List.find?_eq_none] at hall
    refine ⟨⟨nofun, fun ⟨p, hp, hrefused⟩ => ?_⟩, nofun⟩
    have haccepted := hall p hp
    rw [Part.isRefused, hrefused] at haccepted
    exact (haccepted rfl).elim
  | error e =>
    rw [hread] at hagrees
    obtain ⟨p, hp, herror⟩ := hagrees
    obtain ⟨hrefused, before, after, hparts, hbefore⟩ := List.find?_eq_some_iff_append.mp hp
    have hp : p.type.accepts p.value = false := by simpa [Part.isRefused] using hrefused
    refine ⟨⟨fun _ => ⟨p, by simp [hparts], hp⟩, fun _ => ⟨e, rfl⟩⟩, fun e' he' => ?_⟩
    cases he'
    exact ⟨before, p, after, hparts, fun q hq => by simpa [Part.isRefused] using hbefore q hq, hp,
      herror.symm⟩

/-- Lists of optional texts by name. -/
def labels : (HostType.map (.list (.option .string))).Data := [("b", [some "x", none]), ("a", [])]

/-- A value that is a list of lists of texts, in a heap. -/
def lines : Value × Heap := (HostType.list (.list .string)).toValue .empty ([[], ["x"]] : List (List String))

/-- The labels are read back, and the lines cannot be read as numbers because of the first text. -/
theorem labels_read_what_is_accepted :
    (HostType.map (.list (.option .string))).Lossless ∧
    (HostType.map (.list (.option .string))).Keyed labels ∧
    (HostType.map (.list (.option .string))).ofValue
      ((HostType.map (.list (.option .string))).toValue .empty labels).2
      ((HostType.map (.list (.option .string))).toValue .empty labels).1 = .ok labels ∧
    (HostType.list (.list .int)).ofValue lines.2 lines.1 = .error (.element 0 "integer" "string") ∧
    ∃ before p after, (HostType.list (.list .int)).parts lines.2 .whole lines.1 = before ++ p :: after ∧
      (∀ q ∈ before, q.type.accepts q.value = true) ∧ p.type.accepts p.value = false ∧
      .element 0 "integer" "string" = p.error := by
  have hlossless : (HostType.map (.list (.option .string))).Lossless :=
    ⟨(neverNull_iff _).mpr (by simp), trivial⟩
  have hkeyed : (HostType.map (.list (.option .string))).Keyed labels := by
    simp [labels, Keyed]
  exact ⟨hlossless, hkeyed, (reads_what_is_accepted _).1 hlossless .empty labels hkeyed, rfl,
    ((reads_what_is_accepted (.list (.list .int))).2 lines.2 lines.1).2 _ rfl⟩

end HostType

end ScriptMachine
