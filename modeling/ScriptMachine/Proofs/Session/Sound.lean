import ScriptMachine.Proofs.Hierarchy.Load
import ScriptMachine.Proofs.History
import ScriptMachine.Proofs.Session.Moment

/-!
# What a session keeps from request to request

Names and constants belong to the compiler of a session, and both the compiler and the host bind names.
`Session.Sound` is what holds at every moment whatever they do: names of host functions stand for
functions that are registered, globals have slots of their own, and compiled functions refer to constants
and host functions that are there. The constants of the compiler and their values go together.

Tasks and runs do not touch any of this, so only requests of the host have to be considered
(`Session.Moment.Step.sound`).
-/

namespace ScriptMachine

/-! ## More host functions -/

section

variable {B B' : Nat → Prop}

theorem Symbol.Valid.of_le {slots free : Nat} {x : Symbol} (h : x.Valid B slots free)
    (hB : ∀ n, B n → B' n) : x.Valid B' slots free := by
  obtain ⟨name, storage, index, constant⟩ := x
  cases storage with
  | builtin => exact hB _ h
  | _ => exact h

theorem Scope.Bounded.of_le {s : Scope} {n : Nat} (h : s.Bounded B n) (hB : ∀ n, B n → B' n) :
    s.Bounded B' n := fun name x hx => (h name x hx).of_le hB

theorem SymbolTable.Ok.of_le {t : SymbolTable} (h : t.Ok B) (hB : ∀ n, B n → B' n) : t.Ok B' := by
  obtain ⟨current, outer⟩ := t
  show ChainOk B' current outer
  have hchain : ChainOk B current outer := h
  clear h
  induction outer generalizing current with
  | nil => exact ⟨hchain.1.of_le hB, hchain.2⟩
  | cons next rest ih =>
    obtain ⟨hcurrent, hsupplies, hrest⟩ := hchain
    refine ⟨hcurrent.of_le hB, fun x hx => ?_, ih next hrest⟩
    obtain ⟨hknows, hcaptured⟩ := hsupplies x hx
    exact ⟨Symbol.Valid.of_le hknows hB, hcaptured⟩

end

theorem SymbolTable.Grows.apart {t t' : SymbolTable} (h : t.Grows t') (ht : t.current.Apart) :
    t'.current.Apart := by
  cases h with
  | cons hcurrent _ => exact hcurrent.apart ht

/-- Function bodies of any kind, compiled with the first `n` host functions. -/
def Source.upTo (n : Nat) : Source where
  body _ := True
  builtin i := i < n
  blank _ := True

theorem covers_upTo (n : Nat) (S : Site) (k : Node) : Covers (.upTo n) S k := fun _ _ _ => trivial

theorem Compiler.Ok.upTo {c : Compiler} {m n : Nat} (h : c.Ok (.upTo m)) (hle : m ≤ n) :
    c.Ok (.upTo n) := by
  have hB : ∀ i, (Source.upTo m).builtin i → (Source.upTo n).builtin i := fun i hi => Nat.lt_of_lt_of_le hi hle
  exact ⟨h.isGlobal, h.symbols.of_le hB, h.pool.of_le (fun _ _ => trivial) hB, fun _ _ => trivial⟩

theorem Compiler.compile_of_attempt {c c' : Compiler} {p : Program} {unit : UnitCode}
    (h : c.attempt p = (.ok unit, c')) : c.compile p = .ok (unit, c') := by
  unfold Compiler.compile
  rw [h]

/-! ## Parts of a session -/

theorem Registry.register_ok {r r' : Registry} {name : String} {id index : Nat}
    (h : r.register name id = .ok (index, r')) :
    index = r.size ∧ r.size < capacity ∧ r' = ⟨r.entries.push ⟨name, id⟩⟩ := by
  unfold register at h
  split at h
  · cases h
  · split at h
    · cases h
    · next hroom =>
      cases h
      exact ⟨rfl, Nat.lt_of_not_le hroom, rfl⟩

namespace Session

/-- Names, constants and host functions of a session are in order. -/
structure Sound (s : Session) : Prop where
  compiler : s.compiler.Ok (.upTo s.registry.size)
  apart : s.compiler.symbols.current.Apart
  loaded : s.constants.size = s.compiler.pool.size
  capacity : s.registry.size ≤ Registry.capacity

/-- Nothing that matters has changed. -/
theorem Sound.congr {s t : Session} (h : s.Sound) (hcompiler : t.compiler = s.compiler)
    (hregistry : t.registry = s.registry) (hconstants : t.constants = s.constants) : t.Sound := by
  refine ⟨?_, ?_, ?_, ?_⟩
  · rw [hcompiler, hregistry]
    exact h.compiler
  · rw [hcompiler]
    exact h.apart
  · rw [hcompiler, hconstants]
    exact h.loaded
  · rw [hregistry]
    exact h.capacity

theorem apart_symbolsOf (r : Registry) : (Compiler.symbolsOf r).current.Apart := by
  unfold Compiler.symbolsOf
  suffices ∀ (es : List (String × Nat)) (t : SymbolTable), t.current.Apart →
      (es.foldl (fun t e => (t.defineBuiltin e.2 e.1).2) t).current.Apart from this _ _ Scope.apart_empty
  intro es
  induction es with
  | nil => exact fun t ht => ht
  | cons e es ih => exact fun t ht => ih _ (ht.insert_of_ne nofun)

theorem sound_new (σ : Settings) : (new σ).Sound := by
  have hnames : ∀ i < (Prelude.registry 0).names.length, i < (Prelude.registry 0).size := by
    intro i hi
    simpa [Registry.names, Registry.size] using hi
  have hsymbols := Compiler.symbolsOf_ok (B := fun i => i < (Prelude.registry 0).size) _ hnames
  have hcapacity : (Prelude.registry 0).size ≤ Registry.capacity := by decide
  refine ⟨⟨hsymbols.1, hsymbols.2, ?_, fun _ _ => trivial⟩, apart_symbolsOf _, rfl, hcapacity⟩
  intro c hc
  exact absurd hc (Array.not_mem_empty c)

/-- The compiler accepted a unit, and its constants were loaded. -/
theorem Sound.machine {s : Session} {c' : Compiler} {p : Program} {unit : UnitCode} (h : s.Sound)
    (hattempt : s.compiler.attempt p = (.ok unit, c')) (main : Function) :
    (({ s with compiler := c' } : Session).machine main).2.Sound := by
  have hcompile := Compiler.compile_of_attempt hattempt
  have hok := (Compiler.compile_laid hcompile h.compiler (covers_upTo _ _ _)).1
  have hgrows := Compiler.compile_grows hcompile h.compiler (covers_upTo _ _ _)
  have hbegins := Compiler.begins_attempt s.compiler p
  rw [hattempt] at hbegins
  refine ⟨hok, hgrows.apart h.apart, ?_, h.capacity⟩
  have hsize : s.constants.size ≤ c'.pool.size := h.loaded ▸ hbegins.size
  show (c'.pool.load s.constants s.heap).1.size = c'.pool.size
  rw [Pool.size_load]
  omega

/-- All constants are loaded already. -/
theorem Sound.machine_again {s : Session} (h : s.Sound) (main : Function) : (s.machine main).2.Sound := by
  refine ⟨h.compiler, h.apart, ?_, h.capacity⟩
  show (s.compiler.pool.load s.constants s.heap).1.size = s.compiler.pool.size
  rw [Pool.size_load, h.loaded]
  omega

theorem Sound.refuse {s : Session} {c' : Compiler} {p : Program} {e : CompileError} (h : s.Sound)
    (hattempt : s.compiler.attempt p = (.error e, c')) : Sound { s with compiler := c' } := by
  have hagrees := Compiler.agrees_of_refused hattempt
  refine ⟨⟨?_, ?_, ?_, fun _ _ => trivial⟩, ?_, ?_, h.capacity⟩
  · exact hagrees.symbols ▸ h.compiler.isGlobal
  · exact hagrees.symbols ▸ h.compiler.symbols
  · exact hagrees.pool ▸ h.compiler.pool
  · exact hagrees.symbols ▸ h.apart
  · exact hagrees.pool ▸ h.loaded

/-- A name that is not that of a global becomes one. -/
theorem Sound.set {s : Session} (h : s.Sound) (name : String) (v : Value) : (s.set name v).Sound := by
  obtain ⟨hok, hgrows, -⟩ := SymbolTable.define_ok h.compiler.symbols name false
  have hdefined : ∀ index : Nat, Sound { s with
      compiler := { s.compiler with symbols := (s.compiler.symbols.define name false).2 }
      system := { s.system with world := { s.system.world with
        globals := Globals.set s.system.world.globals index v } } } := by
    intro index
    exact ⟨⟨hgrows.isGlobal h.compiler.isGlobal, hok, h.compiler.pool, fun _ _ => trivial⟩,
      hgrows.apart h.apart, h.loaded, h.capacity⟩
  unfold Session.set
  dsimp only
  split
  · exact h.congr rfl rfl rfl
  · exact hdefined _

/-- One more host function, whose name is bound to it. -/
theorem Sound.register {s : Session} (h : s.Sound) (n : Native) : (s.register n).2.Sound := by
  unfold Session.register
  dsimp only
  split
  · exact h
  · next index registry hregister =>
    obtain ⟨rfl, hroom, rfl⟩ := Registry.register_ok hregister
    have hsize : Registry.size ⟨s.registry.entries.push ⟨n.name, s.system.world.natives.size⟩⟩ =
        s.registry.size + 1 := Array.size_push _
    have hcompiler := h.compiler.upTo (Nat.le_succ s.registry.size)
    obtain ⟨hok, hgrows⟩ := @SymbolTable.bind_ok _ _ hcompiler.symbols
      ⟨n.name, .builtin, s.registry.size, true⟩ (Nat.lt_succ_self _) nofun
    refine ⟨?_, hgrows.apart h.apart, h.loaded, ?_⟩
    · dsimp only
      rw [hsize]
      exact ⟨hgrows.isGlobal h.compiler.isGlobal, hok, hcompiler.pool, fun _ _ => trivial⟩
    · dsimp only
      rw [hsize]
      exact hroom

theorem Sound.withHeap {α : Type} {s : Session} (h : s.Sound) (f : Heap → α × Heap) :
    (s.withHeap f).2.Sound := h.congr rfl rfl rfl

theorem Sound.tryReceive {s : Session} (h : s.Sound) (name : String) : (s.tryReceive name).2.Sound := by
  unfold Session.tryReceive
  split
  · split
    · exact h.withHeap _
    · exact h
  · exact h

namespace Moment

variable {host : Host} {a b : Moment}

/-- No step leaves names, constants and host functions in disorder. -/
theorem Step.sound (h : Step host a b) (ha : a.session.Sound) : b.session.Sound := by
  cases h with
  | refuse s p e compiler hattempt => exact ha.refuse hattempt
  | run s p unit compiler hattempt => exact (ha.machine hattempt (.main unit.code unit.debug)).congr rfl rfl rfl
  | call s name callee args => exact (ha.machine_again (.main #[] #[])).congr rfl rfl rfl
  | set s name v => exact ha.set name v
  | register s n => exact ha.register n
  | tryReceive s name => exact ha.tryReceive name
  | _ => exact ha.congr rfl rfl rfl

theorem Reached.sound {σ : Settings} (h : Reached host σ a) : a.session.Sound := by
  induction h with
  | refl => exact sound_new σ
  | tail _ hstep ih => exact hstep.sound ih

end Moment

end Session

end ScriptMachine
