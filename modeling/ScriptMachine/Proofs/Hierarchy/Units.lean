import Mathlib.Logic.Relation
import ScriptMachine.Proofs.Hierarchy.Load
import ScriptMachine.Proofs.Session.Moment

/-!
# Classes from unit to unit

A compiler is given one unit after the other, and each of them is accepted or refused. When it is accepted
its constants are loaded.

* `Compiler.Loaded.Reached.classes_founded` — after each unit, every class that names a parent is linked to
  the last class of that name at the end of the unit that declared it, the links above every class end, no
  link changes later, and looking up a method, the constructor or the fields of a class value goes up these
  links;
* `Session.Moment.Reached.loaded` — a session gives units to its compiler in this way, whatever else
  happens.
-/

namespace ScriptMachine

/-! ## Model -/

/-- A compiler, and the values of its constants. -/
structure Compiler.Loaded where
  compiler : Compiler
  constants : Array Value

namespace Compiler.Loaded

/-- A unit is compiled, or the host changes something else. -/
inductive Step : Loaded → Loaded → Prop where
  /-- A unit is accepted, and its constants are loaded. -/
  | accept (s : Loaded) (p : Program) (unit : UnitCode) (c : Compiler) (h : Heap) :
    s.compiler.attempt p = (.ok unit, c) → Step s ⟨c, (c.pool.load s.constants h).1⟩
  | refuse (s : Loaded) (p : Program) (e : CompileError) (c : Compiler) :
    s.compiler.attempt p = (.error e, c) → Step s ⟨c, s.constants⟩
  /-- The constants are loaded once more, before a call of the host. -/
  | reload (s : Loaded) (h : Heap) : Step s ⟨s.compiler, (s.compiler.pool.load s.constants h).1⟩
  /-- The host binds names, or turns folding on or off. -/
  | change (s : Loaded) (symbols : SymbolTable) (optimizer : Optimizer) :
    Step s ⟨{ s.compiler with symbols, optimizer }, s.constants⟩

/-- Any number of steps. -/
abbrev Steps (s t : Loaded) : Prop := Relation.ReflTransGen Step s t

/-- A compiler that no unit was given to. -/
def new (r : Registry) (optimize : Bool) : Loaded := ⟨.new r #[] optimize, #[]⟩

/-- The compiler was given some units. -/
def Reached (s : Loaded) : Prop := ∃ r optimize, (new r optimize).Steps s

variable {s t : Loaded}

theorem Step.begins (h : Step s t) : s.compiler.pool.Begins t.compiler.pool := by
  cases h with
  | accept p unit c heap hattempt =>
    have hbegins := s.compiler.begins_attempt p
    rw [hattempt] at hbegins
    exact hbegins
  | refuse p e c hattempt => exact (agrees_of_refused hattempt).pool.symm ▸ .refl _
  | reload heap | change symbols optimizer => exact .refl _

theorem Steps.class? (h : s.Steps t) {place : Nat} {k : ClassConstant}
    (hk : s.compiler.pool.class? place = some k) : t.compiler.pool.class? place = some k := by
  induction h with
  | refl => exact hk
  | tail _ hstep ih => exact hstep.begins.class? ih

/-- The classes are founded, and every one of them has a value. -/
structure Sound (s : Loaded) : Prop where
  founded : s.compiler.pool.Founded
  mirrored : s.compiler.pool.Mirrored s.constants

theorem Step.sound (h : Step s t) (hs : s.Sound) : t.Sound := by
  cases h with
  | accept p unit c heap hattempt =>
    have hbegins := s.compiler.begins_attempt p
    have hdrafts := s.compiler.attempt_drafts p
    rw [hattempt] at hbegins hdrafts
    obtain ⟨q, spans, hdrafts, hlink⟩ := hdrafts
    have hfounded := hs.founded.link hdrafts hlink
    exact ⟨hfounded, hs.mirrored.load hs.founded hbegins hfounded heap⟩
  | refuse p e c hattempt =>
    have hpool := (agrees_of_refused hattempt).pool
    exact ⟨hpool.symm ▸ hs.founded, hpool.symm ▸ hs.mirrored⟩
  | reload heap => exact ⟨hs.founded, hs.mirrored.load hs.founded (.refl _) hs.founded heap⟩
  | change symbols optimizer => exact ⟨hs.founded, hs.mirrored⟩

theorem Reached.sound (h : s.Reached) : s.Sound := by
  obtain ⟨r, optimize, hsteps⟩ := h
  induction hsteps with
  | refl => exact ⟨Pool.founded_empty, rfl, fun place k hk => by cases hk⟩
  | tail _ hstep ih => exact hstep.sound ih

/-! ## Links -/

/-- Every class is linked at the end of the unit that declares it. -/
theorem Reached.linked (h : s.Reached) {place : Nat} {k : ClassConstant}
    (hk : s.compiler.pool.class? place = some k) {name : String} (hname : k.parentName = some name) :
    ∃ (before t : Loaded) (parent : Nat), before.Reached ∧ before.Step t ∧ t.Steps s ∧
      before.compiler.pool.size ≤ place ∧ place < t.compiler.pool.size ∧
      k.parent = some parent ∧ t.compiler.pool.IsLast name parent := by
  obtain ⟨r, optimize, hsteps⟩ := h
  induction hsteps with
  | refl => cases hk
  | @tail s t hsteps hstep ih =>
    have hbegins := hstep.begins
    by_cases hold : place < s.compiler.pool.size
    · have hclass : s.compiler.pool.class? place = some k := by
        unfold Pool.class? at hk ⊢
        rwa [hbegins.same place hold] at hk
      obtain ⟨before, u, parent, hbefore, hunit, hlater, hrest⟩ := ih hclass
      exact ⟨before, u, parent, hbefore, hunit, hlater.tail hstep, hrest⟩
    · have hplace : s.compiler.pool.size ≤ place := Nat.le_of_not_lt hold
      -- only a unit that is accepted adds constants
      have hparent : ∃ parent, k.parent = some parent ∧ t.compiler.pool.IsLast name parent := by
        cases hstep with
        | accept p unit c heap hattempt =>
          have hdrafts := s.compiler.attempt_drafts p
          rw [hattempt] at hdrafts
          obtain ⟨q, spans, hdrafts, hlink⟩ := hdrafts
          exact (hdrafts.parent_link hlink hplace hk).2 name hname
        | refuse p e c hattempt =>
          have hlt := Pool.lt_size_of_class? hk
          rw [(agrees_of_refused hattempt).pool] at hlt
          exact absurd hlt hold
        | reload heap | change symbols optimizer => exact absurd (Pool.lt_size_of_class? hk) hold
      obtain ⟨parent, hsome, hlast⟩ := hparent
      exact ⟨s, t, parent, ⟨r, optimize, hsteps⟩, hstep, .refl, hplace, Pool.lt_size_of_class? hk, hsome, hlast⟩

/-- After any units, accepted or refused, every class that names a parent is linked to the class that was
the last one of this name at the end of the unit that declared it, and no other class is linked. The links
above a class lead to one without a parent, over no more classes than the pool has constants, and these
are the classes in which its methods, its constructor and its fields are looked up. Links stay as they are
whatever comes after. -/
theorem Reached.classes_founded (h : s.Reached) :
    (∀ place k, s.compiler.pool.class? place = some k →
      (k.parentName = none → k.parent = none) ∧
      (∀ name, k.parentName = some name → ∃ (before t : Loaded) (parent : Nat),
        before.Reached ∧ before.Step t ∧ t.Steps s ∧
        before.compiler.pool.size ≤ place ∧ place < t.compiler.pool.size ∧
        k.parent = some parent ∧ t.compiler.pool.IsLast name parent) ∧
      ∃ path c, s.compiler.pool.Rises place path ∧ path.length ≤ s.compiler.pool.size ∧
        s.constants[place]? = some (.cls c) ∧ c.chain.length = path.length ∧
        (∀ name, (c.findMethod? name).map (·.function) =
          path.findSome? fun i => (s.compiler.pool.class? i).bind fun k => k.method? name) ∧
        c.constructor?.map (·.function) =
          path.findSome? (fun i => (s.compiler.pool.class? i).bind ClassConstant.constructor?) ∧
        c.fieldNames = path.reverse.foldl (fun names i =>
          Class.addNames names (((s.compiler.pool.class? i).map (·.properties)).getD [])) []) ∧
    ∀ t, s.Steps t → ∀ place k, s.compiler.pool.class? place = some k →
      t.compiler.pool.class? place = some k := by
  have hs := h.sound
  refine ⟨fun place k hk => ⟨(hs.founded.linked place k hk).mpr, fun name hname => h.linked hk hname, ?_⟩,
    fun t ht place k hk => Steps.class? ht hk⟩
  obtain ⟨path, hrises⟩ := hs.founded.rises place k hk
  obtain ⟨c, hc, hchain⟩ := hs.mirrored.chain hrises
  exact ⟨path, c, hrises, hrises.length_le, classOf?_eq_some_iff.mp hc, hchain.length_eq,
    Pool.findMethod?_of_shows hchain, Pool.constructor?_of_shows hchain, Pool.fieldNames_of_shows hchain⟩

end Compiler.Loaded

/-! ## A child before its parent -/

namespace CompileM

variable {σ : CompileState} {symbol : Symbol} {symbols : SymbolTable} {name : String} {constant : Bool} {span : Span}

/-- A variable of the top level. -/
theorem define_global (h : σ.symbols.define name constant = (symbol, symbols))
    (hstorage : symbol.storage = .global) (hindex : symbol.index < maxGlobals) :
    define name constant span σ = .ok symbol { σ with symbols } := by
  let f : CompileState → Symbol × CompileState := fun s =>
    ((s.symbols.define name constant).1, { s with symbols := (s.symbols.define name constant).2 })
  have hfirst : (modifyGet f : CompileM Symbol) σ = .ok symbol { σ with symbols } := by
    show EStateM.Result.ok (σ.symbols.define name constant).1
      { σ with symbols := (σ.symbols.define name constant).2 } = _
    rw [h]
  unfold define
  simp only [Bind.bind, EStateM.bind]
  rw [show (modifyGet _ : CompileM Symbol) σ = _ from hfirst]
  dsimp only
  rw [hstorage]
  dsimp only
  rw [if_neg (Nat.not_le.mpr hindex)]
  rfl

theorem beginClass_global (h : σ.symbols.define name false = (symbol, symbols)) (hstorage : symbol.storage = .global)
    (hindex : symbol.index < maxGlobals) (hroom : σ.pool.size < Pool.capacity) (hasParent : Bool) (s span : Span) :
    beginClass ⟨name, s⟩ hasParent span σ = .ok (symbol, σ.pool.size)
      { σ with symbols, pool := σ.pool.push .null, classSpans := (name, span) :: σ.classSpans,
               classes := ⟨σ.pool.size, hasParent⟩ :: σ.classes } := by
  have hget : ∀ τ : CompileState, (get : CompileM CompileState) τ = .ok τ τ := fun _ => rfl
  unfold beginClass addConstant
  simp only [Bind.bind, EStateM.bind, define_global h hstorage hindex, hget]
  rw [if_neg (Nat.not_le.mpr hroom)]
  rfl

/-- A class without members. -/
theorem stmt_bareClass (h : σ.symbols.define name false = (symbol, symbols)) (hstorage : symbol.storage = .global)
    (hindex : symbol.index < maxGlobals) (hroom : σ.pool.size < Pool.capacity) (parent : Option Ident) (s span : Span) :
    ∃ σ', stmt [] (.classDecl ⟨name, s⟩ parent [] span) σ = .ok () σ' ∧ σ'.symbols = symbols ∧
      σ'.pool = σ.pool.push (.cls ⟨name, parent.map (·.name), [], [], none⟩) := by
  have hbegin := beginClass_global h hstorage hindex hroom parent.isSome s span
  obtain ⟨_, _, index, _⟩ := symbol
  cases hstorage
  refine ⟨?_, ?_, ?_, ?_⟩
  rotate_left
  · rw [stmt]
    simp only [Bind.bind, EStateM.bind, hbegin, members]
    rfl
  · rfl
  · show (σ.pool.push .null).setIfInBounds σ.pool.size _ = _
    apply Array.ext_getElem?
    intro i
    rw [Array.getElem?_setIfInBounds, Array.getElem?_push, Array.getElem?_push, Array.size_push]
    by_cases hi : i = σ.pool.size
    · simp [hi, ClassMembers.empty]
    · simp [hi, Ne.symm hi]

end CompileM

/-- A name that is new at the top level. -/
theorem SymbolTable.define_fresh {t : SymbolTable} {name : String} (hglobal : t.isGlobal = true)
    (hfresh : t.lookup? name = none) (constant : Bool) :
    t.define name constant = (⟨name, .global, t.current.definitions, constant⟩,
      ⟨Scope.insert { t.current with definitions := t.current.definitions + 1 }
        ⟨name, .global, t.current.definitions, constant⟩, t.outer⟩) := by
  unfold lookup? at hfresh
  unfold define Scope.define
  rw [hglobal, hfresh]
  rfl

/-- `class B extends A {}; class A {}` -/
def childFirst : Program := ⟨[Build.classDecl "B" (some "A") [], Build.classDecl "A" none []]⟩

theorem attempt_childFirst : ∃ unit c, (Compiler.new .empty #[] false).attempt childFirst = (.ok unit, c) ∧
    c.pool = #[.cls ⟨"B", some "A", [], [], some 1⟩, .cls ⟨"A", none, [], [], none⟩] := by
  let σ := (Compiler.new .empty #[] false).start
  have hfresh : σ.symbols.lookup? "B" = none := Std.HashMap.getElem?_empty
  obtain ⟨σ₁, hB, hsymbols, hpool⟩ := CompileM.stmt_bareClass (σ := σ)
    (SymbolTable.define_fresh rfl hfresh false) rfl (by decide) (by decide) (some (Build.ident "A")) .dummy .dummy
  have hglobal : σ₁.symbols.isGlobal = true := by rw [hsymbols]; rfl
  have hfresh₁ : σ₁.symbols.lookup? "A" = none := by
    rw [hsymbols]
    show (Std.HashMap.insert _ _ _)["A"]? = none
    rw [Std.HashMap.getElem?_insert]
    exact Std.HashMap.getElem?_empty
  obtain ⟨σ₂, hA, hsymbols₂, hpool₂⟩ := CompileM.stmt_bareClass (σ := σ₁)
    (SymbolTable.define_fresh hglobal hfresh₁ false) rfl (by rw [hsymbols]; decide) (by rw [hpool]; decide) none
    .dummy .dummy
  rw [hpool] at hpool₂
  have hlink : σ₂.pool.link σ₂.classSpans 0 =
      .ok #[.cls ⟨"B", some "A", [], [], some 1⟩, .cls ⟨"A", none, [], [], none⟩] := by
    rw [hpool₂]
    rfl
  have hB : CompileM.stmt [] (Build.classDecl "B" (some "A") []) σ = .ok () σ₁ := hB
  have hA : CompileM.stmt [] (Build.classDecl "A" none []) σ₁ = .ok () σ₂ := hA
  have hstmts : CompileM.stmts [] childFirst.statements σ = .ok () σ₂ := by
    simp only [childFirst, CompileM.stmts, Bind.bind, EStateM.bind, hB, hA]
    rfl
  have hunit : ∃ block σ₃, CompileM.unit 0 childFirst.statements σ = .ok block σ₃ ∧
      σ₃.pool = #[.cls ⟨"B", some "A", [], [], some 1⟩, .cls ⟨"A", none, [], [], none⟩] := by
    unfold CompileM.unit
    simp only [Bind.bind, EStateM.bind, hstmts, CompileM.linkClasses_eq, hlink]
    exact ⟨_, _, rfl, rfl⟩
  obtain ⟨block, σ₃, hunit, hpool₃⟩ := hunit
  refine ⟨⟨block.code, block.debug⟩, (Compiler.new .empty #[] false).keep σ₃, ?_, hpool₃⟩
  unfold Compiler.attempt EStateM.run
  rw [show (Compiler.new .empty #[] false).optimizer.run childFirst = (childFirst, ⟨0, 0⟩) from rfl]
  dsimp only
  rw [show CompileM.unit (Compiler.new .empty #[] false).pool.size childFirst.statements
    (Compiler.new .empty #[] false).start = .ok block σ₃ from hunit]

/-- The class of the parent comes last, and the other one is linked to it. -/
theorem childFirst_founded : ∃ s : Compiler.Loaded, s.Reached ∧
    s.compiler.pool = #[.cls ⟨"B", some "A", [], [], some 1⟩, .cls ⟨"A", none, [], [], none⟩] ∧
    ∃ path c, s.compiler.pool.Rises 0 path ∧ path.length ≤ 2 ∧ s.constants[0]? = some (.cls c) ∧
      c.chain.length = path.length := by
  obtain ⟨unit, c, hattempt, hpool⟩ := attempt_childFirst
  let s : Compiler.Loaded := ⟨c, (c.pool.load #[] .empty).1⟩
  have hreached : s.Reached := ⟨.empty, false, .single (.accept _ childFirst unit c .empty hattempt)⟩
  have hclass : s.compiler.pool.class? 0 = some ⟨"B", some "A", [], [], some 1⟩ := by
    show c.pool.class? 0 = _
    rw [hpool]
    rfl
  have hsize : s.compiler.pool.size = 2 := by
    show c.pool.size = 2
    rw [hpool]
    rfl
  obtain ⟨hclasses, -⟩ := Compiler.Loaded.Reached.classes_founded hreached
  obtain ⟨-, -, path, d, hrises, hlength, hd, hchain, -⟩ := hclasses 0 _ hclass
  exact ⟨s, hreached, hpool, path, d, hrises, hsize ▸ hlength, hd, hchain⟩

/-! ## Sessions -/

namespace Session

/-- The compiler of a session with the values of its constants. -/
def loaded (s : Session) : Compiler.Loaded := ⟨s.compiler, s.constants⟩

namespace Moment

variable {host : Host} {a b : Moment}

theorem Step.loaded (h : Step host a b) : a.session.loaded.Steps b.session.loaded := by
  cases h with
  | refuse s p e c hattempt => exact .single (.refuse s.loaded p e c hattempt)
  | run s p unit c hattempt => exact .single (.accept s.loaded p unit c s.heap hattempt)
  | call s name callee args => exact .single (.reload s.loaded s.heap)
  | set s name v =>
    have hsymbols : ∃ symbols, (s.set name v).loaded = ⟨{ s.compiler with symbols }, s.constants⟩ := by
      unfold Session.set
      dsimp only
      split <;> exact ⟨_, rfl⟩
    obtain ⟨symbols, heq⟩ := hsymbols
    exact .single (heq ▸ .change s.loaded symbols s.compiler.optimizer)
  | register s n =>
    unfold Session.register
    dsimp only
    split
    · exact .refl
    · exact .single (.change s.loaded _ s.compiler.optimizer)
  | tryReceive s name =>
    unfold Session.tryReceive
    split
    · split <;> exact .refl
    · exact .refl
  | _ => exact .refl

/-- A session gives one unit after the other to its compiler. -/
theorem Reached.loaded {σ : Settings} (h : Reached host σ a) : a.session.loaded.Reached := by
  refine ⟨Prelude.registry 0, σ.optimize, ?_⟩
  induction h with
  | refl => exact .refl
  | tail _ hstep ih => exact ih.trans hstep.loaded

end Moment

end Session

end ScriptMachine
