import ScriptMachine.Proofs.Containers.Basic
import ScriptMachine.Value.Render

/-!
# Rendering containers that may hold themselves

The outline of a value is the tree that shows up in its text: containers with all that they hold, but for containers
that are cut and replaced by a marker. On every heap, with the entries of its maps in any order, each value has exactly
one outline that cuts a container where this container lies inside itself, and nowhere else. Rendering writes this
outline.

1. **Containers** with their parts, their markers and their brackets.
2. **Outlines**, where they are cut, and their texts.
3. **The outline of a value**: there is one, and no other.
4. **Cycles**: an outline is cut somewhere exactly if some container that it shows lies inside itself.
5. **Rendering**: `Heap.render_outline`.
-/

namespace ScriptMachine

/-! ## Containers -/

namespace Container

/-- The container that a value is. -/
def of? : Value → Option Container
  | .array r => some (.array r)
  | .map r => some (.map r)
  | .hash r => some (.hash r)
  | _ => none

/-- What a container holds, in order and with what is written in front of it. -/
def parts (h : Heap) : Container → List (String × Value)
  | .array r => (h.array r).toList.map fun v => ("", v)
  | .map r => (h.map r).toList.map fun e => (e.1.text ++ " => ", e.2)
  | .hash r => (h.hash r).toList.map fun e => (e.1.text ++ ": ", e.2)

/-- What is written for a container inside itself. -/
def marker : Container → String
  | .array _ | .map _ => "[...]"
  | .hash _ => "\x7b...\x7d"

/-- What is written around the parts of a container. -/
def bracket : Container → String → String
  | .array _, text | .map _, text => "[" ++ text ++ "]"
  | .hash _, text => "\x7b" ++ text ++ "\x7d"

end Container

/-- Text of a value that is no container. -/
def Value.plainText (nested : Bool) : Value → String
  | .int n => toString n.toInt
  | .float x => Decimal.floatText x
  | .bool b => if b then "true" else "false"
  | .null => "null"
  | .str s => if nested then Text.quoted s else s
  | .closure c => "<fn " ++ c.function.displayName ++ ">"
  | .function _ f => "<compiled fn " ++ f.displayName ++ ">"
  | .native _ name => "<native fn " ++ name ++ ">"
  | .cls c => "<class " ++ c.name ++ ">"
  | .object _ c => "<" ++ c.name ++ " instance>"
  | .channel _ capacity => "<channel " ++ Channel.capacityLabel capacity ++ ">"
  | .error message _ => "error: " ++ message
  | .array _ | .map _ | .hash _ => ""

/-- Keys are written as their values are inside a container. -/
theorem Key.text_eq_plainText (k : Key) : k.text = k.toValue.plainText true := by
  cases k <;> rfl

/-! ## Outlines -/

/-- What shows up in the text of a value. -/
inductive Outline where
  /-- A value that is no container. -/
  | plain (v : Value)
  /-- A container that is replaced by its marker. -/
  | cut (c : Container)
  /-- A container with its parts. -/
  | full (c : Container) (parts : List (String × Outline))

namespace Outline

mutual

def text (nested : Bool) : Outline → String
  | .plain v => v.plainText nested
  | .cut c => c.marker
  | .full c parts => c.bracket (Heap.commaList (texts parts))
termination_by structural o => o

/-- Parts are nested. -/
def texts : List (String × Outline) → List String
  | [] => []
  | (label, o) :: parts => (label ++ o.text true) :: texts parts
termination_by structural parts => parts

end

/-- The outline shows a value on the heap, wherever it is cut. -/
inductive Shows (h : Heap) : Outline → Value → Prop
  | plain {v : Value} (hv : Container.of? v = none) : Shows h (.plain v) v
  | cut {v : Value} {c : Container} (hv : Container.of? v = some c) : Shows h (.cut c) v
  | full {v : Value} {c : Container} {parts : List (String × Outline)} (hv : Container.of? v = some c)
      (hlabels : parts.map (·.1) = (c.parts h).map (·.1))
      (hparts : ∀ q ∈ parts.zip (c.parts h), Shows h q.1.2 q.2.2) : Shows h (.full c parts) v

/-- Inside the containers `around`, a container is cut if it is one of them, and only then. -/
inductive CutsInside : List Container → Outline → Prop
  | plain {around : List Container} {v : Value} : CutsInside around (.plain v)
  | cut {around : List Container} {c : Container} (hmem : c ∈ around) : CutsInside around (.cut c)
  | full {around : List Container} {c : Container} {parts : List (String × Outline)} (hnew : c ∉ around)
      (hparts : ∀ q ∈ parts, CutsInside (c :: around) q.2) : CutsInside around (.full c parts)

/-- Nothing is cut. -/
inductive Uncut : Outline → Prop
  | plain {v : Value} : Uncut (.plain v)
  | full {c : Container} {parts : List (String × Outline)} (hparts : ∀ q ∈ parts, Uncut q.2) : Uncut (.full c parts)

theorem texts_eq_map (parts : List (String × Outline)) : texts parts = parts.map fun q => q.1 ++ q.2.text true := by
  induction parts with
  | nil => rfl
  | cons q parts ih => rw [texts, ih, List.map_cons]

theorem pair_mem_zip {α β : Type} {xs : List α} {ys : List β} {i : Nat} (hi : i < xs.length) (hi' : i < ys.length) :
    (xs[i], ys[i]) ∈ xs.zip ys :=
  List.mem_iff_getElem.mpr ⟨i, by rw [List.length_zip]; omega, List.getElem_zip⟩

theorem exists_mem_zip_left {α β : Type} {xs : List α} {ys : List β} (hlength : xs.length = ys.length) {x : α}
    (hx : x ∈ xs) : ∃ y ∈ ys, (x, y) ∈ xs.zip ys := by
  rcases List.mem_iff_getElem.mp hx with ⟨i, hi, rfl⟩
  exact ⟨ys[i], List.getElem_mem _, pair_mem_zip hi (hlength ▸ hi)⟩

theorem exists_mem_zip_right {α β : Type} {xs : List α} {ys : List β} (hlength : xs.length = ys.length) {y : β}
    (hy : y ∈ ys) : ∃ x ∈ xs, (x, y) ∈ xs.zip ys := by
  rcases List.mem_iff_getElem.mp hy with ⟨i, hi, rfl⟩
  exact ⟨xs[i], List.getElem_mem (hlength ▸ hi), pair_mem_zip (hlength ▸ hi) hi⟩

theorem length_eq_of_labels {parts : List (String × Outline)} {vs : List (String × Value)}
    (hlabels : parts.map (·.1) = vs.map (·.1)) : parts.length = vs.length := by
  simpa using congrArg List.length hlabels

/-- Parts with the labels of the same values are the same if those that stand for the same value are. -/
theorem parts_ext {parts parts' : List (String × Outline)} {vs : List (String × Value)}
    (hlabels : parts.map (·.1) = vs.map (·.1)) (hlabels' : parts'.map (·.1) = vs.map (·.1))
    (heq : ∀ q ∈ parts, ∀ q' ∈ parts', ∀ r, (q, r) ∈ parts.zip vs → (q', r) ∈ parts'.zip vs → q.2 = q'.2) :
    parts = parts' := by
  have hlength := length_eq_of_labels hlabels
  have hlength' := length_eq_of_labels hlabels'
  refine List.ext_getElem (hlength.trans hlength'.symm) fun i hi hi' => Prod.ext ?_ ?_
  · have hlabel := List.getElem_of_eq (hlabels.trans hlabels'.symm) (by simpa using hi)
    rwa [List.getElem_map, List.getElem_map] at hlabel
  · have hmem := pair_mem_zip hi (hlength ▸ hi)
    have hmem' := pair_mem_zip hi' (hlength ▸ hi)
    exact heq _ (List.getElem_mem hi) _ (List.getElem_mem hi') _ hmem hmem'

variable {h : Heap} {v : Value} {o o' : Outline} {around : List Container}

/-- There is only one outline that is cut in the right places. -/
theorem Shows.unique (hshows : o.Shows h v) (hcuts : o.CutsInside around) (hshows' : o'.Shows h v)
    (hcuts' : o'.CutsInside around) : o = o' := by
  induction hshows generalizing o' around with
  | plain hv =>
    cases hshows' with
    | plain => rfl
    | cut hv' | full hv' => cases hv.symm.trans hv'
  | cut hv =>
    cases hshows' with
    | plain hv' => cases hv.symm.trans hv'
    | cut hv' =>
      cases hv.symm.trans hv'
      rfl
    | full hv' =>
      cases hv.symm.trans hv'
      cases hcuts with
      | cut hmem => cases hcuts' with
        | full hnew => exact absurd hmem hnew
  | @full v c parts hv hlabels _ ih =>
    cases hshows' with
    | plain hv' => cases hv.symm.trans hv'
    | cut hv' =>
      cases hv.symm.trans hv'
      cases hcuts' with
      | cut hmem => cases hcuts with
        | full hnew => exact absurd hmem hnew
    | @full _ _ parts' hv' hlabels' hparts' =>
      cases hv.symm.trans hv'
      cases hcuts with
      | full _ hcuts => cases hcuts' with
        | full _ hcuts' =>
          congr 1
          refine parts_ext hlabels hlabels' fun q hq q' hq' r hmem hmem' => ?_
          exact ih (q, r) hmem (hcuts q hq) (hparts' (q', r) hmem') (hcuts' q' hq')

end Outline

/-! ## The outline of a value -/

namespace Heap

/-- The outline of a value inside the containers `around`; `fuel` bounds the nesting of containers shown. -/
def outlineFrom (h : Heap) (fuel : Nat) (around : List Container) (v : Value) : Outline :=
  match Container.of? v with
  | none => .plain v
  | some c =>
    if c ∈ around then .cut c
    else
      match fuel with
      | 0 => .cut c
      | fuel + 1 => .full c ((c.parts h).map fun q => (q.1, h.outlineFrom fuel (c :: around) q.2))
termination_by structural fuel

/-- The containers on the heap. -/
def containers (h : Heap) : List Container :=
  (List.range h.arrays.size).map .array ++ (List.range h.maps.size).map .map ++ (List.range h.hashes.size).map .hash

theorem length_containers (h : Heap) : h.containers.length = h.containerCount := by
  simp only [containers, containerCount, List.length_append, List.length_map, List.length_range]

variable {h : Heap} {v : Value} {c : Container} {around : List Container} {fuel : Nat}

/-- A container that holds something is on the heap. -/
theorem mem_containers_of_mem_parts {q : String × Value} (hq : q ∈ c.parts h) : c ∈ h.containers := by
  unfold containers
  rw [List.mem_append, List.mem_append]
  cases c with
  | array r =>
    rcases List.mem_map.mp hq with ⟨e, he, -⟩
    have hr := lt_of_array_size_pos (Array.size_pos_of_mem (Array.mem_toList_iff.mp he))
    exact .inl (.inl (List.mem_map_of_mem (List.mem_range.mpr hr)))
  | map r =>
    rcases List.mem_map.mp hq with ⟨e, he, -⟩
    have hr := lt_of_map_size_pos (Array.size_pos_of_mem (Array.mem_toList_iff.mp he))
    exact .inl (.inr (List.mem_map_of_mem (List.mem_range.mpr hr)))
  | hash r =>
    rcases List.mem_map.mp hq with ⟨e, he, -⟩
    have hr := lt_of_hash_size_pos (Array.size_pos_of_mem (Array.mem_toList_iff.mp he))
    exact .inr (List.mem_map_of_mem (List.mem_range.mpr hr))

theorem outlineFrom_shows (h : Heap) (fuel : Nat) (around : List Container) (v : Value) :
    (h.outlineFrom fuel around v).Shows h v := by
  induction fuel generalizing around v with
  | zero =>
    unfold outlineFrom
    split
    · exact .plain ‹_›
    · split
      · exact .cut ‹_›
      · exact .cut ‹_›
  | succ fuel ih =>
    unfold outlineFrom
    split
    · exact .plain ‹_›
    · rename_i c hv
      split
      · exact .cut hv
      · refine .full hv (List.map_map ..) fun q hq => ?_
        rcases List.mem_iff_getElem.mp hq with ⟨i, hi, rfl⟩
        rw [List.getElem_zip, List.getElem_map]
        exact ih _ _

theorem outlineFrom_cutsInside (hfuel : leftToOpen h.containers around < fuel) (v : Value) :
    (h.outlineFrom fuel around v).CutsInside around := by
  induction fuel generalizing around v with
  | zero => exact absurd hfuel (Nat.not_lt_zero _)
  | succ fuel ih =>
    unfold outlineFrom
    split
    · exact .plain
    · rename_i c hv
      split
      · exact .cut ‹_›
      · rename_i hnew
        refine .full hnew fun q hq => ?_
        rcases List.mem_map.mp hq with ⟨part, hpart, rfl⟩
        -- a container with a part is on the heap, so one less is left to open
        have hless := leftToOpen_cons_lt (mem_containers_of_mem_parts hpart) hnew
        exact ih (by omega) part.2

/-! ## Cycles -/

/-- A container holds another one directly. -/
def Holds (h : Heap) (c d : Container) : Prop := ∃ q ∈ c.parts h, Container.of? q.2 = some d

/-- No container that is met in a value lies inside itself. -/
def Acyclic (h : Heap) (v : Value) : Prop :=
  ∀ c d, Container.of? v = some c → Relation.ReflTransGen h.Holds c d → ¬Relation.TransGen h.Holds d d

theorem Acyclic.part (hacyclic : h.Acyclic v) (hv : Container.of? v = some c) {q : String × Value}
    (hq : q ∈ c.parts h) : h.Acyclic q.2 := by
  intro d e hd hde
  exact hacyclic c e hv (.head ⟨q, hq, hd⟩ hde)

/-- Without cycles no container is met inside itself. -/
theorem uncut_of_acyclic {o : Outline} (hshows : o.Shows h v) (hcuts : o.CutsInside around) (hacyclic : h.Acyclic v)
    (haround : ∀ c, Container.of? v = some c → ∀ d ∈ around, Relation.TransGen h.Holds d c) : o.Uncut := by
  induction hshows generalizing around with
  | plain => exact .plain
  | @cut v c hv =>
    cases hcuts with
    | cut hmem =>
      -- what is cut is one of the containers around it, so it lies inside itself
      exact absurd (haround c hv c hmem) (hacyclic c c hv .refl)
  | @full v c parts hv hlabels _ ih =>
    cases hcuts with
    | full _ hcuts =>
      refine .full fun q hq => ?_
      rcases Outline.exists_mem_zip_left (Outline.length_eq_of_labels hlabels) hq with ⟨r, hr, hmem⟩
      refine ih _ hmem (hcuts q hq) (hacyclic.part hv hr) ?_
      intro d hd e he
      have hholds : h.Holds c d := ⟨r, hr, hd⟩
      rcases List.mem_cons.mp he with rfl | he
      · exact .single hholds
      · exact .tail (haround c hv e he) hholds

/-- All chains of containers that hold one another are as finite as an outline that shows them. -/
theorem acc_of_uncut {o : Outline} (hshows : o.Shows h v) (huncut : o.Uncut) (hv : Container.of? v = some c) :
    Acc (flip h.Holds) c := by
  induction hshows generalizing c with
  | plain hnone => cases hnone.symm.trans hv
  | cut => cases huncut
  | full hv' hlabels _ ih =>
    cases hv'.symm.trans hv
    cases huncut with
    | full huncut =>
      refine .intro _ fun d hd => ?_
      rcases hd with ⟨r, hr, hd⟩
      rcases Outline.exists_mem_zip_right (Outline.length_eq_of_labels hlabels) hr with ⟨q, hq, hmem⟩
      exact ih _ hmem (huncut q hq) hd

theorem not_transGen_of_acc (hacc : Acc (flip h.Holds) c) : ¬Relation.TransGen h.Holds c c := by
  induction hacc with
  | intro c _ ih =>
    intro hcycle
    rcases Relation.TransGen.head'_iff.mp hcycle with ⟨d, hcd, hdc⟩
    exact ih d hcd (.tail' hdc hcd)

theorem acyclic_of_uncut {o : Outline} (hshows : o.Shows h v) (huncut : o.Uncut) : h.Acyclic v := by
  intro c d hv hcd
  have hacc := acc_of_uncut hshows huncut hv
  refine not_transGen_of_acc (c := d) ?_
  induction hcd with
  | refl => exact hacc
  | tail _ hstep ih => exact ih.inv hstep

/-! ## Rendering -/

theorem renderFrom_of_none (hv : Container.of? v = none) (nested : Bool) :
    h.renderFrom fuel around nested v = v.plainText nested := by
  unfold renderFrom
  split <;> first | rfl | cases hv

theorem renderFrom_zero (hv : Container.of? v = some c) (nested : Bool) :
    h.renderFrom 0 around nested v = c.marker := by
  unfold Container.of? at hv
  split at hv
  case h_1 | h_2 | h_3 =>
    cases hv
    unfold renderFrom
    split <;> rfl
  case h_4 => cases hv

theorem renderFrom_of_container (hv : Container.of? v = some c) (nested : Bool) :
    h.renderFrom (fuel + 1) around nested v = if c ∈ around then c.marker else
      c.bracket (commaList ((c.parts h).map fun q => q.1 ++ h.renderFrom fuel (c :: around) true q.2)) := by
  have hcontains : ∀ c, around.contains c = true ↔ c ∈ around := fun c => List.contains_iff_mem
  unfold Container.of? at hv
  split at hv
  case h_1 r =>
    cases hv
    rw [renderFrom, Container.parts, List.map_map]
    simp only [hcontains, Function.comp_def, String.empty_append]
    rfl
  case h_2 r =>
    cases hv
    rw [renderFrom, Container.parts, List.map_map]
    simp only [hcontains, Function.comp_def]
    rfl
  case h_3 r =>
    cases hv
    rw [renderFrom, Container.parts, List.map_map]
    simp only [hcontains, Function.comp_def]
    rfl
  case h_4 => cases hv

theorem renderFrom_eq_text (nested : Bool) (v : Value) :
    h.renderFrom fuel around nested v = (h.outlineFrom fuel around v).text nested := by
  induction fuel generalizing around nested v with
  | zero =>
    unfold outlineFrom
    split
    · exact renderFrom_of_none ‹_› nested
    · rename_i c hv
      rw [renderFrom_zero hv]
      split <;> rfl
  | succ fuel ih =>
    unfold outlineFrom
    split
    · exact renderFrom_of_none ‹_› nested
    · rename_i c hv
      rw [renderFrom_of_container hv]
      split
      · rfl
      · rw [Outline.text, Outline.texts_eq_map, List.map_map]
        congr 3
        funext q
        exact congrArg (q.1 ++ ·) (ih true q.2)

/-- On every heap, a value has one outline that is cut where a container lies inside itself and nowhere else. Rendering
writes this outline, however much fuel it has beyond what the containers of the heap need. It is cut nowhere exactly if
no container in it lies inside itself. -/
theorem render_outline (h : Heap) (v : Value) :
    ∃ o : Outline, (∀ o' : Outline, o'.Shows h v ∧ o'.CutsInside [] ↔ o' = o) ∧
      h.render v = o.text false ∧
      (∀ fuel > h.containerCount, ∀ nested, h.renderFrom fuel [] nested v = o.text nested) ∧
      (o.Uncut ↔ h.Acyclic v) := by
  have hleft : leftToOpen h.containers [] ≤ h.containerCount := h.length_containers ▸ leftToOpen_le h.containers []
  have hshows := h.outlineFrom_shows (h.containerCount + 1) [] v
  have hcuts := outlineFrom_cutsInside (Nat.lt_succ_of_le hleft) v
  refine ⟨h.outlineFrom (h.containerCount + 1) [] v, ?_, ?_, ?_, ?_, ?_⟩
  · intro o'
    constructor
    · rintro ⟨hshows', hcuts'⟩
      exact hshows'.unique hcuts' hshows hcuts
    · rintro rfl
      exact ⟨hshows, hcuts⟩
  · exact renderFrom_eq_text false v
  · intro fuel hfuel nested
    have hcuts' := outlineFrom_cutsInside (Nat.lt_of_le_of_lt hleft hfuel) v
    rw [renderFrom_eq_text, (h.outlineFrom_shows fuel [] v).unique hcuts' hshows hcuts]
  · exact acyclic_of_uncut hshows
  · exact fun hacyclic => uncut_of_acyclic hshows hcuts hacyclic fun _ _ _ hd => absurd hd List.not_mem_nil

-- shared containers are written out each time, only nesting cuts them
example :
    let h : Heap := { empty with arrays := #[#[.int 1], #[.array 0, .array 0, .array 1], #[.array 1, .array 2]] }
    h.render (.array 1) = "[[1], [1], [...]]" ∧ h.render (.array 2) = "[[[1], [1], [...]], [...]]" := by
  decide +kernel

end Heap

end ScriptMachine
