import ScriptMachine.Compile.Monad
import ScriptMachine.Proofs.Layout.Relation
import ScriptMachine.Proofs.Scope

/-!
# What code refers to

Instructions name slots, cells, constants and host functions by number. `Emitted.Refers` says that
everything an instruction names is there, in a `Supply` of what its block can use. A supply only
becomes more while a unit is compiled: the pool grows (`Pool.Grows`), and a place that is reserved for
a class is filled later.

`Function.From` puts together what is known of a compiled function: it has the layout of a body of the
source, and all references of its code are supplied.
-/

namespace ScriptMachine

open Point

/-! ## Growing pools -/

/-- What may become of a constant: a place that was reserved gets its class, and a class is linked. -/
inductive Constant.Becomes : Constant → Constant → Prop where
  | same (c : Constant) : Becomes c c
  | filled (c : ClassConstant) : Becomes .null (.cls c)
  | linked (c c' : ClassConstant) : Becomes (.cls c) (.cls c')

theorem Constant.Becomes.trans {c d e : Constant} (h : c.Becomes d) (h' : d.Becomes e) :
    c.Becomes e := by
  cases h with
  | same => exact h'
  | filled k =>
    cases h' with
    | same => exact .filled k
    | linked _ k' => exact .filled k'
  | linked k k' =>
    cases h' with
    | same => exact .linked k k'
    | linked _ k'' => exact .linked k k''

namespace Pool

variable {p q r : Pool} {place : Nat}

/-- Every constant is still at its place. -/
def Grows (p q : Pool) : Prop :=
  ∀ (place : Nat) (c : Constant), p[place]? = some c → ∃ d : Constant, q[place]? = some d ∧ c.Becomes d

/-- A place holds a name. -/
def IsName (p : Pool) (place : Nat) : Prop := ∃ s, p[place]? = some (.str s)

/-- A place is reserved for a class, or it holds one. -/
def IsClass (p : Pool) (place : Nat) : Prop :=
  p[place]? = some .null ∨ ∃ c, p[place]? = some (.cls c)

theorem Grows.refl (p : Pool) : p.Grows p := fun _ c hc => ⟨c, hc, .same c⟩

theorem Grows.trans (h : p.Grows q) (h' : q.Grows r) : p.Grows r := by
  intro place c hc
  obtain ⟨d, hd, hcd⟩ := h place c hc
  obtain ⟨e, he, hde⟩ := h' place d hd
  exact ⟨e, he, hcd.trans hde⟩

theorem getElem?_push_of_some {c d : Constant} (h : p[place]? = some c) :
    (p.push d)[place]? = some c := by
  obtain ⟨hlt, -⟩ := Array.getElem?_eq_some_iff.mp h
  rw [Array.getElem?_push, if_neg (Nat.ne_of_lt hlt), h]

theorem grows_push (p : Pool) (c : Constant) : p.Grows (p.push c) :=
  fun _ d hd => ⟨d, getElem?_push_of_some hd, .same d⟩

/-- A class is put where a place was reserved or where it stood before. -/
theorem grows_setClass (h : p.IsClass place) (c : ClassConstant) :
    p.Grows (p.setIfInBounds place (.cls c)) := by
  intro i d hd
  by_cases hi : place = i
  · subst hi
    obtain ⟨hlt, -⟩ := Array.getElem?_eq_some_iff.mp hd
    refine ⟨.cls c, by rw [Array.getElem?_setIfInBounds_self_of_lt hlt], ?_⟩
    rcases h with h | ⟨k, h⟩
    all_goals
      obtain rfl := Option.some.inj (h.symm.trans hd)
    · exact .filled c
    · exact .linked k c
  · exact ⟨d, by rw [Array.getElem?_setIfInBounds_ne hi, hd], .same d⟩

theorem Grows.lt_size (h : p.Grows q) (hlt : place < p.size) : place < q.size := by
  obtain ⟨d, hd, -⟩ := h place p[place] (Array.getElem?_eq_getElem hlt)
  exact (Array.getElem?_eq_some_iff.mp hd).1

theorem Grows.function (h : p.Grows q) {f : Function} (hf : p[place]? = some (.function f)) :
    q[place]? = some (.function f) := by
  obtain ⟨d, hd, hbecomes⟩ := h place _ hf
  cases hbecomes
  exact hd

theorem IsName.mono (hname : p.IsName place) (h : p.Grows q) : q.IsName place := by
  obtain ⟨s, hs⟩ := hname
  obtain ⟨d, hd, hbecomes⟩ := h place _ hs
  cases hbecomes
  exact ⟨s, hd⟩

theorem IsClass.mono (hclass : p.IsClass place) (h : p.Grows q) : q.IsClass place := by
  rcases hclass with hnull | ⟨c, hc⟩
  · obtain ⟨d, hd, hbecomes⟩ := h place _ hnull
    cases hbecomes with
    | same => exact .inl hd
    | filled c => exact .inr ⟨c, hd⟩
  · obtain ⟨d, hd, hbecomes⟩ := h place _ hc
    cases hbecomes with
    | same => exact .inr ⟨c, hd⟩
    | linked _ c' => exact .inr ⟨c', hd⟩

/-- A place that holds null has held null all along, or it is new. -/
theorem Grows.null (h : p.Grows q) (hnull : q[place]? = some .null) (hlt : place < p.size) :
    p[place]? = some .null := by
  obtain ⟨d, hd, hbecomes⟩ := h place p[place] (Array.getElem?_eq_getElem hlt)
  rw [hnull, Option.some.injEq] at hd
  subst hd
  rw [Array.getElem?_eq_getElem hlt]
  generalize p[place] = c at hbecomes
  cases hbecomes
  rfl

end Pool

/-! ## References -/

/-- What the code of a block can use. -/
structure Supply where
  pool : Pool
  /-- Number of slots for locals. -/
  slots : Nat
  /-- Number of cells of the closure. -/
  free : Nat
  /-- The numbers of the host functions. -/
  builtin : Nat → Prop

/-- The next supply has no less. -/
structure Supply.Grows (S T : Supply) : Prop where
  pool : S.pool.Grows T.pool
  slots : S.slots ≤ T.slots
  free : S.free ≤ T.free
  builtin : ∀ n, S.builtin n → T.builtin n

namespace Opcode

/-- Whether an instruction reads, writes or captures a cell of its closure. -/
def usesCell : Opcode → Bool
  | .getFree | .setFree | .captureFree => true
  | _ => false

/-- Whether an instruction names anything but globals and targets. -/
def refers : Opcode → Bool
  | .constant | .getLocal | .setLocal | .captureLocal | .getFree | .setFree | .captureFree
  | .getBuiltin | .getProperty | .setProperty | .invoke | .invokeSuper | .closure => true
  | _ => false

end Opcode

/-- The code of a function uses only the first `n` cells of its closure. -/
def Function.Frees (f : Function) (n : Nat) : Prop :=
  ∀ is, decode f.code = .ok is → ∀ i ∈ is, i.opcode.usesCell = true → ∀ k ∈ i.operands, k < n

/-- A closure is made of a function with as many cells as it uses. They are queued, and they are
counted right if there are not too many for that. -/
structure Pool.Closes (p : Pool) (place queued count : Nat) (f : Function) (n : Nat) : Prop where
  function : p[place]? = some (.function f)
  frees : f.Frees n
  queued : n ≤ queued
  count : n < 256 → count = n

/-- Whatever an instruction names is there. -/
def Emitted.Refers (S : Supply) (u : Setup) (i : Emitted) : Prop :=
  match i.opcode with
  | .constant => i.operand 0 < S.pool.size
  | .getLocal | .setLocal | .captureLocal => i.operand 0 < S.slots
  | .getFree | .setFree | .captureFree => i.operand 0 < S.free
  | .getBuiltin => ∃ n, i.operand 0 ≤ n ∧ S.builtin n
  | .getProperty | .setProperty | .invoke => S.pool.IsName (i.operand 0)
  | .invokeSuper => S.pool.IsName (i.operand 0) ∧ ∃ place, u = .constant place ∧ S.pool.IsClass place
  | .closure => ∃ f n, S.pool.Closes (i.operand 0) u.queued (i.operand 1) f n
  | _ => True

theorem Emitted.refers_of_not {S : Supply} {u : Setup} {i : Emitted} (h : i.opcode.refers = false) :
    i.Refers S u := by
  obtain ⟨op, xs, span⟩ := i
  cases op <;> trivial

theorem Emitted.Refers.mono {S T : Supply} {u : Setup} {i : Emitted} (h : i.Refers S u)
    (hgrow : S.Grows T) : i.Refers T u := by
  obtain ⟨op, xs, span⟩ := i
  cases op with
  | constant => exact hgrow.pool.lt_size h
  | getLocal | setLocal | captureLocal => exact Nat.lt_of_lt_of_le h hgrow.slots
  | getFree | setFree | captureFree => exact Nat.lt_of_lt_of_le h hgrow.free
  | getBuiltin =>
    obtain ⟨n, hle, hn⟩ := h
    exact ⟨n, hle, hgrow.builtin n hn⟩
  | getProperty | setProperty | invoke => exact Pool.IsName.mono h hgrow.pool
  | invokeSuper =>
    obtain ⟨hname, place, hu, hclass⟩ := h
    exact ⟨hname.mono hgrow.pool, place, hu, hclass.mono hgrow.pool⟩
  | closure =>
    obtain ⟨f, n, hclose⟩ := h
    exact ⟨f, n, { hclose with function := hgrow.pool.function hclose.function }⟩
  | _ => trivial

/-- Whatever the instruction of a point names is there. -/
def Point.Refers (S : Supply) (p : Point) : Prop := p.item.Refers S p.setup

theorem Point.Refers.mono {S T : Supply} {p : Point} (h : p.Refers S) (hgrow : S.Grows T) :
    p.Refers T := Emitted.Refers.mono h hgrow

/-! ## Finished blocks -/

/-- The instructions of a piece of code. -/
def Point.items (code : List Point) : List Emitted := code.map Point.item

/-- A compiled function is the given code. -/
structure Function.Holds (f : Function) (code : List Point) : Prop where
  code_eq : f.code = (CodeBlock.ofItems (items code)).code
  debug_eq : f.debug = (CodeBlock.ofItems (items code)).debug

/-- What a unit is compiled from, and with. -/
structure Source where
  /-- The function bodies. -/
  body : Block → Prop
  /-- The numbers of the host functions. -/
  builtin : Nat → Prop
  /-- Places of the pool that held null from the beginning. -/
  blank : Nat → Prop

/-- A function with `n` cells is the code of a body of the source, and all references of the code are
supplied. -/
structure Function.Lies (f : Function) (Src : Source) (p : Pool) (n : Nat) (b : Block)
    (code : List Point) (notes : List Note) : Prop where
  body : Src.body b
  lays : Lays .top (.body b) 0 code notes
  holds : f.Holds code
  refers : ∀ q ∈ code, q.Refers ⟨p, f.locals, n, Src.builtin⟩

/-- A compiled function comes from a body of the source. -/
def Function.From (Src : Source) (p : Pool) (n : Nat) (f : Function) : Prop :=
  ∃ b code notes, f.Lies Src p n b code notes

/-- The functions of a constant come from bodies of the source, and methods have no cells. -/
def Constant.From (Src : Source) (p : Pool) : Constant → Prop
  | .function f => ∃ n, f.From Src p n
  | .cls c => ∀ m ∈ c.methods, m.2.From Src p 0
  | _ => True

/-- The functions of a constant. -/
def Constant.functions : Constant → List Function
  | .function f => [f]
  | .cls c => c.methods.map (·.2)
  | _ => []

theorem Constant.From.functions {Src : Source} {p : Pool} {c : Constant} (h : c.From Src p)
    {f : Function} (hf : f ∈ c.functions) : ∃ n, f.From Src p n := by
  cases c with
  | function g =>
    obtain rfl := List.mem_singleton.mp hf
    exact h
  | cls c =>
    obtain ⟨m, hm, rfl⟩ := List.mem_map.mp hf
    exact ⟨0, h m hm⟩
  | _ => cases hf

/-- Every function of the pool comes from a body of the source. -/
def Pool.From (Src : Source) (p : Pool) : Prop := ∀ c ∈ p, c.From Src p

theorem Function.From.mono {Src : Source} {p q : Pool} {n : Nat} {f : Function} (h : f.From Src p n)
    (hgrow : p.Grows q) : f.From Src q n := by
  obtain ⟨b, code, notes, hlies⟩ := h
  refine ⟨b, code, notes, { hlies with refers := fun x hx => (hlies.refers x hx).mono ?_ }⟩
  exact ⟨hgrow, Nat.le_refl _, Nat.le_refl _, fun _ hn => hn⟩

theorem Constant.From.mono {Src : Source} {p q : Pool} {c : Constant} (h : c.From Src p)
    (hgrow : p.Grows q) : c.From Src q := by
  cases c with
  | function f =>
    obtain ⟨n, hf⟩ := h
    exact ⟨n, hf.mono hgrow⟩
  | cls c => exact fun m hm => (h m hm).mono hgrow
  | _ => trivial

/-- All function bodies on the way through a piece belong to the source. -/
def Covers (Src : Source) (S : Site) (n : Node) : Prop :=
  ∀ T b, Site.Visits (S, n) (T, .body b) → Src.body b

theorem Covers.part {Src : Source} {S T : Site} {n k : Node} (h : Covers Src S n)
    (hk : (T, k) ∈ S.parts n) : Covers Src T k := by
  intro U b hv
  exact h U b (Relation.ReflTransGen.head hk hv)

theorem Covers.body {Src : Source} {S T : Site} {n : Node} {b : Block} (h : Covers Src S n)
    (hb : (T, .body b) ∈ S.parts n) : Src.body b :=
  h T b (Relation.ReflTransGen.single hb)

end ScriptMachine
