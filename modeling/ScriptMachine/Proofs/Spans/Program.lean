import ScriptMachine.Proofs.Constancy.State
import ScriptMachine.Proofs.Expression.Code
import ScriptMachine.Proofs.Frames.Program
import ScriptMachine.Proofs.Machine.Equations
import ScriptMachine.Proofs.Machine.Kit
import ScriptMachine.Proofs.Spans.Forms

/-!
# Spans are exact

Every block of a program decodes to the instructions that `Origins` lists for its source, and at the offset of each of
them the table of spans has the span of its node. The table has no two entries at one offset. While a machine is at an
instruction this is the span that it names, for the instruction does not change where the machine is
(`Compiler.Built.spans_exact`).
-/

namespace ScriptMachine

open Point

/-! ## The table of a block -/

/-- Entries stand in the order of their offsets, and no two have the same. -/
theorem CodeBlock.pairwise_debugFrom (o : Nat) (last : Option Span) (is : List Emitted) :
    (debugFrom o last is).Pairwise fun d e => d.offset < e.offset := by
  induction is generalizing o last with
  | nil => exact .nil
  | cons i is ih =>
    have htail := ih (o + i.opcode.length) (some i.span)
    simp only [debugFrom]
    split
    · exact htail
    · refine List.pairwise_cons.mpr ⟨fun e he => ?_, htail⟩
      have hle := (offset_of_mem_debugFrom he).1
      have hpos := i.opcode.length_pos
      show o < e.offset
      omega

namespace Function.Stems

variable {f : Function} {n : Node} {is : List Emitted}

/-- The table of spans is in strict order. -/
theorem pairwise (h : f.Stems n is) : f.debug.toList.Pairwise fun d e => d.offset < e.offset := by
  rw [h.debug_eq, CodeBlock.debug_eq]
  exact CodeBlock.pairwise_debugFrom 0 none is

/-- The block decodes to its instructions. -/
theorem decode_eq (h : f.Stems n is) : decode f.code = .ok ((row [] 0 0 is).map Point.instruction) := by
  rw [h.code_eq]
  exact CodeBlock.decode_eq (b := .ofItems is) h.sized

theorem hasAt (h : f.Stems n is) : f.HasAt 0 is := by
  refine ⟨[], [], ?_, ?_, ?_, rfl⟩
  · rw [h.code_eq, CodeBlock.code_eq, List.nil_append, List.append_nil]
    rfl
  · rw [h.debug_eq, CodeBlock.debug_eq, List.nil_append, List.append_nil]
    rfl
  · rw [List.nil_append]
    exact h.sized

end Function.Stems

/-! ## Machines at an instruction -/

/-- The machine runs `f` and is at the instruction that stands at an offset. -/
structure Machine.Stands (m : Machine) (f : Function) (offset : Nat) : Prop where
  running : ∃ (fs : Array Frame) (g : Frame), m.frames = fs.push g ∧ g.closure.function = f
  offset : m.opOffset = offset

theorem Machine.Stands.span {m : Machine} {f : Function} {offset : Nat} (h : m.Stands f offset) :
    m.span = (f.spanAt? offset).getD .dummy := by
  obtain ⟨fs, g, hframes, hf⟩ := h.running
  unfold Machine.span
  rw [hframes, Array.back?_push, h.offset, ← hf]
  rfl

/-- However a turn of the machine ends, it ends in the state `t`. -/
def State.TurnsTo (s t : State) : Prop :=
  (∃ signal, Exec.advance s = .ok signal t) ∨ ∃ e, Exec.advance s = .error e t

/-- The state in which the instruction at the running frame is performed. -/
def State.fetched (s : State) (fs : Array Frame) (g : Frame) : State :=
  ⟨s.world, { s.machine with frames := fs.push { g with ip := g.ip + 1 }, opOffset := g.ip }⟩

instance (offset : Nat) : State.Tame fun s => s.machine.opOffset = offset where
  machine hs _ hmemory := (congrArg Prod.snd hmemory).trans hs
  world hs _ _ := hs
  spawn hs _ := hs

/-- No instruction changes where the machine is. -/
theorem Exec.leaves_perform_offset (op : Opcode) (offset : Nat) :
    Leaves (fun s => s.machine.opOffset = offset) (perform op) := by
  by_cases hpop : op = .pop
  · subst hpop
    exact leaves_pop.bind fun v => Leaves.bind (keeps_modifyMachine fun _ hs => hs) fun _ => leaves_pure _
  · by_cases hset : op = .setGlobal
    · subst hset
      have hglobal : Leaves (fun s => s.machine.opOffset = offset) setGlobal :=
        (leaves_operand 2).bind fun _ => leaves_peek.bind fun _ => keeps_modify fun _ hs => hs
      exact hglobal.bind fun _ => leaves_pure _
    · exact leaves_perform_of_ne hpop hset

section

variable {s t : State} {fs : Array Frame} {g : Frame} {op : Opcode}

/-- A machine that waits stays at the instruction that has to wait. -/
theorem State.TurnsTo.offset_of_waiting (h : s.TurnsTo t) {w : Wait} (hw : s.machine.waiting = some w) :
    t.machine.opOffset = s.machine.opOffset := by
  have hpoll : Exec.advance s = Exec.poll w s := by
    refine (Exec.bind_eq (Exec.getMachine_eq s)).trans ?_
    rw [hw]
  have hleaves := Exec.leaves_poll (I := fun u => u.machine.opOffset = s.machine.opOffset) w
  rcases h with ⟨signal, hrun⟩ | ⟨e, hrun⟩
  · rw [hpoll] at hrun
    exact (hleaves.ok rfl hrun).1
  · rw [hpoll] at hrun
    exact (hleaves.error rfl hrun).1

/-- A machine that begins with an instruction is still at it when it has performed it. -/
theorem State.TurnsTo.offset_of_fetched (h : s.TurnsTo t)
    (hrun : Exec.advance s = Exec.perform op (s.fetched fs g)) : t.machine.opOffset = g.ip := by
  have hleaves := Exec.leaves_perform_offset op g.ip
  rcases h with ⟨signal, hend⟩ | ⟨e, hend⟩
  · rw [hrun] at hend
    exact (hleaves.ok rfl hend).1
  · rw [hrun] at hend
    exact (hleaves.error rfl hend).1

end

/-! ## Instructions and their nodes -/

/-- The instruction `i` of a function stands for the node that `o` tells of. -/
structure Function.Shows (f : Function) (i : Instruction) (o : Origin) : Prop where
  opcode : i.opcode = o.opcode
  /-- The table has the span of the node. -/
  span : f.spanAt? i.offset = some o.span
  /-- A machine at the instruction names this span. -/
  named : ∀ m : Machine, m.Stands f i.offset → m.span = o.span
  /-- A machine whose frame stands before the instruction goes to it and performs it, and stays at it however this
  ends. -/
  performed : ∀ (s : State) (fs : Array Frame) (g : Frame), s.machine.frames = fs.push g → g.closure.function = f →
    g.ip = i.offset → s.machine.waiting = none →
    Exec.advance s = Exec.perform i.opcode (s.fetched fs g) ∧ (s.fetched fs g).machine.Stands f i.offset ∧
    ∀ t, s.TurnsTo t → t.machine.opOffset = i.offset
  /-- If the instruction has to wait, the machine is still at it whenever it tries again. -/
  retried : ∀ (s t : State), s.machine.Stands f i.offset → s.machine.waiting.isSome → s.TurnsTo t →
    t.machine.opOffset = i.offset

theorem Function.HasAt.shows {f : Function} {o : Nat} {i : Emitted} (h : f.HasAt o [i]) :
    f.Shows ⟨o, i.opcode, i.read⟩ i.origin where
  opcode := rfl
  span := h.span
  named := by
    intro m hm
    rw [hm.span, h.span]
    rfl
  performed := by
    rintro s fs g hframes rfl hip hwaiting
    have hbyte : g.code[g.ip]? = some i.opcode.toByte := by
      rw [hip]
      exact h.byte
    have hrun : Exec.advance s = Exec.perform i.opcode (s.fetched fs g) := Exec.advance_eq hframes hwaiting hbyte
    refine ⟨hrun, ⟨⟨fs, _, rfl, rfl⟩, hip⟩, fun t ht => ?_⟩
    rw [ht.offset_of_fetched hrun, hip]
  retried := by
    intro s t hs hwaiting ht
    obtain ⟨w, hw⟩ := Option.isSome_iff_exists.mp hwaiting
    rw [ht.offset_of_waiting hw, hs.offset]

/-- Instructions in a row stand for their nodes, one by one. -/
theorem Function.HasAt.shows_row {f : Function} {o : Nat} {is : List Emitted} (h : f.HasAt o is) (u : Setup)
    (regions : List Region) (height : Nat) :
    List.Forall₂ f.Shows ((rowFrom u regions o height is).map Point.instruction) (is.map Emitted.origin) := by
  induction is generalizing o u height with
  | nil => exact .nil
  | cons i is ih => exact .cons h.head.shows (ih h.tail _ _)

/-! ## Units -/

section

variable {Src Src' : Source} {us : List (List Stmt)} {c c' : Compiler} {p : Program} {unit : UnitCode}

theorem Pool.StemsFrom.of_le {q : Pool} (h : q.StemsFrom Src) (hbody : ∀ b, Src.body b → Src'.body b) :
    q.StemsFrom Src' := by
  intro k hk f hf
  obtain ⟨b, is, hb, hstems⟩ := h k hk f hf
  exact ⟨b, is, hbody b hb, hstems⟩

/-- Linking changes no functions. -/
theorem Pool.Links.stemsFrom {q r : Pool} (h : q.Links r) (hq : q.StemsFrom Src) : r.StemsFrom Src := by
  intro d hd f hf
  obtain ⟨k, hk, hf⟩ := h.functions hd hf
  exact hq k hk f hf

/-- The top-level block of an accepted unit is the code of its statements, and functions come from the source. -/
theorem Compiler.compile_stems (h : c.compile p = .ok (unit, c')) (hc : c.pool.StemsFrom Src)
    (hcovers : Covers Src .top (.unit (c.statements p))) :
    c'.pool.StemsFrom Src ∧ ∃ is, (Function.main unit.code unit.debug).Stems (.unit (c.statements p)) is := by
  obtain ⟨σ, pool, hrun, hlink, rfl, rfl⟩ := Compiler.compile_ok h
  have hstart : c.start.Traced Src [] := ⟨rfl, nofun, hc⟩
  obtain ⟨os, hos, horigins, hσ⟩ :=
    CompileM.traces_stmts (hcovers.part List.mem_cons_self) c.start () σ hrun hstart
  have hhalt := hσ.emit .halt [] .dummy rfl
  have hunit : (σ.emit .halt [] .dummy).origins = os ++ [⟨.halt, .dummy⟩] := by
    rw [CompileState.origins_emit, horigins]
    rfl
  refine ⟨(Pool.links_of_link hlink).stemsFrom hσ.pool, (σ.emit .halt [] .dummy).items, ?_, hhalt.sized, ?_, ?_⟩
  · show Origins .top _ (σ.emit .halt [] .dummy).origins
    rw [hunit]
    exact .unit hos
  · exact congrArg CodeBlock.code (CodeBlock.eq_ofItems _)
  · exact congrArg CodeBlock.debug (CodeBlock.eq_ofItems _)

/-- Every function of the pool is the code of a body of one of the units. -/
theorem Compiler.Built.stemsFrom (h : Built us c) : c.pool.StemsFrom (.ofUnits us) := by
  induction h with
  | new r nulls optimize =>
    intro k hk f hf
    obtain ⟨-, rfl⟩ := Array.mem_replicate.mp hk
    cases hf
  | bind _ _ _ ih => exact ih
  | builtin _ _ _ ih => exact ih
  | compile _ hcompile ih =>
    refine (compile_stems hcompile (ih.of_le ?_) (covers_unit _ _)).1
    rintro b ⟨u, hu, hvisits⟩
    exact ⟨u, List.mem_cons_of_mem _ hu, hvisits⟩

/-- Every block that may run decodes to the instructions of its source, each at an offset at which the table has the
span of its node. This span is what a machine names while it is at the instruction, and the instruction does not change
where the machine is, so that it names this span until it runs another frame. The offsets of the table are strictly
increasing. -/
theorem Compiler.Built.spans_exact (h : Built us c) (hcompile : c.compile p = .ok (unit, c')) {f : Function}
    (hf : unit.Runs c' f) :
    ∃ n os is,
      (f = .main unit.code unit.debug ∧ n = .unit (c.statements p) ∨
        (∃ k ∈ c'.pool, f ∈ k.functions) ∧ ∃ b, n = .body b ∧ BodyOf (c.statements p :: us) b) ∧
      Origins .top n os ∧ decode f.code = .ok is ∧ List.Forall₂ f.Shows is os ∧
      f.debug.toList.Pairwise fun d e => d.offset < e.offset := by
  have hbefore : c.pool.StemsFrom (.ofUnits (c.statements p :: us)) := by
    refine h.stemsFrom.of_le ?_
    rintro b ⟨u, hu, hvisits⟩
    exact ⟨u, List.mem_cons_of_mem _ hu, hvisits⟩
  obtain ⟨hpool, is, hmain⟩ := compile_stems hcompile hbefore (covers_unit _ _)
  have hexact {n : Node} {is : List Emitted} (hstems : f.Stems n is) :
      Origins .top n (is.map Emitted.origin) ∧
      decode f.code = .ok ((row [] 0 0 is).map Point.instruction) ∧
      List.Forall₂ f.Shows ((row [] 0 0 is).map Point.instruction) (is.map Emitted.origin) ∧
      f.debug.toList.Pairwise fun d e => d.offset < e.offset :=
    ⟨hstems.origins, hstems.decode_eq, hstems.hasAt.shows_row _ _ _, hstems.pairwise⟩
  rcases hf with rfl | ⟨k, hk, hf⟩
  · exact ⟨_, _, _, .inl ⟨rfl, rfl⟩, hexact hmain⟩
  · obtain ⟨b, is, hb, hstems⟩ := hpool k hk f hf
    exact ⟨_, _, _, .inr ⟨⟨k, hk, hf⟩, b, rfl, hb⟩, hexact hstems⟩

end

/-- The literal of `fn() { true }()` is a function of its unit. -/
theorem calledLiteral_spans_exact : ∃ c',
    Compiler.Built [] (.new .empty #[] false) ∧
    (Compiler.new .empty #[] false).compile ⟨[calledLiteral]⟩ = .ok (calledLiteral.unit, c') ∧
    calledLiteral.unit.Runs c' calledLiteral.function ∧
    ∃ b os is, BodyOf [[calledLiteral]] b ∧ Origins .top (.body b) os ∧
      decode calledLiteral.function.code = .ok is ∧ List.Forall₂ calledLiteral.function.Shows is os := by
  rcases compile_calledLiteral with ⟨c', hcompile, hpool⟩
  have hbuilt : Compiler.Built [] (.new .empty #[] false) := .new .empty 0 false
  have hruns : calledLiteral.unit.Runs c' calledLiteral.function :=
    .inr ⟨.function calledLiteral.function, by simp [hpool], List.mem_singleton.mpr rfl⟩
  obtain ⟨n, os, is, hnode, horigins, hdecode, hshows, -⟩ := hbuilt.spans_exact hcompile hruns
  refine ⟨c', hbuilt, hcompile, hruns, ?_⟩
  rcases hnode with ⟨hmain, -⟩ | ⟨-, b, rfl, hb⟩
  · -- The code of the unit is longer.
    exact absurd (congrArg (fun f => f.code.size) hmain) (by decide)
  · exact ⟨b, os, is, hb, horigins, hdecode, hshows⟩

end ScriptMachine
