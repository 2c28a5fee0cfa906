import ScriptMachine.Proofs.Layout.Compile

/-!
# Compilers with a history

A compiler has a history: the units that it accepted. In between, names are bound from outside. Every
function in its pool comes from a function body of one of these units (`Compiler.Built.ok`).
-/

namespace ScriptMachine

namespace Compiler

/-- The statements of a unit as they are compiled. -/
def statements (c : Compiler) (p : Program) : List Stmt := (c.optimizer.run p).1.statements

/-- A compiler that accepted the given units, latest first. -/
inductive Built : List (List Stmt) → Compiler → Prop where
  /-- A new compiler may start from a pool that has constants, but no functions. -/
  | new (r : Registry) (nulls : Nat) (optimize : Bool) :
    Built [] (.new r (Array.replicate nulls .null) optimize)
  | bind {us : List (List Stmt)} {c : Compiler} (name : String) (constant : Bool) :
    Built us c → Built us { c with symbols := (c.symbols.define name constant).2 }
  | builtin {us : List (List Stmt)} {c : Compiler} (index : Nat) (name : String) :
    Built us c → Built us { c with symbols := (c.symbols.defineBuiltin index name).2 }
  | compile {us : List (List Stmt)} {c c' : Compiler} {p : Program} {unit : UnitCode} :
    Built us c → c.compile p = .ok (unit, c') → Built (c.statements p :: us) c'

end Compiler

/-- A function body of one of the units. -/
def BodyOf (us : List (List Stmt)) (b : Block) : Prop :=
  ∃ ss ∈ us, Site.Visits (.top, .unit ss) (.top, .body b)

/-- Function bodies are compiled as blocks of their own, wherever they stand. -/
theorem Site.eq_top_of_parts {S T : Site} {n : Node} {b : Block} (h : (T, .body b) ∈ S.parts n) :
    T = .top := by
  cases n with
  | form e =>
    simp only [parts, formParts] at h
    split at h
    · split at h <;> simp at h
    · simp at h
    · simp at h
    · simp at h
      exact h.1
    · simp at h
  | action s =>
    simp only [parts] at h
    unfold actionParts at h
    split at h <;> simp at h
    exact h.2.symm
  | operands e k es =>
    cases es with
    | nil => simp [parts] at h
    | cons x xs => cases x <;> simp [parts] at h
  | value b | body b =>
    simp only [parts, valueParts] at h
    split at h <;> simp at h
  | stmts ss => cases ss <;> simp [parts] at h
  | exits depth span =>
    simp only [parts, exitParts] at h
    split at h
    · simp at h
    · split at h <;> simp at h
  | _ => simp [parts] at h

theorem Site.eq_top_of_visits {S T : Site} {n : Node} {b : Block} (h : Visits (S, n) (T, .body b))
    (hn : n ≠ .body b) : T = .top := by
  rcases Relation.ReflTransGen.cases_tail h with heq | ⟨⟨U, k⟩, -, hpart⟩
  · cases heq
    exact (hn rfl).elim
  · exact eq_top_of_parts hpart

/-- Units with function bodies in `us`, compiled with any host functions and from any pool. -/
def Source.ofUnits (us : List (List Stmt)) : Source where
  body := BodyOf us
  builtin _ := True
  blank _ := True

/-- Function bodies of a unit come from the unit. -/
theorem bodyOf_of_visits {ss : List Stmt} {us : List (List Stmt)} {T : Site} {b : Block}
    (h : Site.Visits (.top, .unit ss) (T, .body b)) : BodyOf (ss :: us) b := by
  obtain rfl := Site.eq_top_of_visits h (by simp)
  exact ⟨ss, List.mem_cons_self, h⟩

theorem covers_unit (ss : List Stmt) (us : List (List Stmt)) :
    Covers (.ofUnits (ss :: us)) .top (.unit ss) := fun _ _ hvisits => bodyOf_of_visits hvisits

theorem Function.From.of_le {Src Src' : Source} {p : Pool} {n : Nat} {f : Function}
    (h : f.From Src p n) (hbody : ∀ b, Src.body b → Src'.body b)
    (hbuiltin : ∀ n, Src.builtin n → Src'.builtin n) : f.From Src' p n := by
  obtain ⟨b, code, notes, hb, hlays, hholds, hrefers⟩ := h
  exact ⟨b, code, notes, hbody b hb, hlays, hholds, fun q hq =>
    (hrefers q hq).mono ⟨.refl p, Nat.le_refl _, Nat.le_refl _, hbuiltin⟩⟩

theorem Pool.From.of_le {Src Src' : Source} {p : Pool} (h : p.From Src)
    (hbody : ∀ b, Src.body b → Src'.body b) (hbuiltin : ∀ n, Src.builtin n → Src'.builtin n) :
    p.From Src' := by
  intro c hc
  have hfrom := h c hc
  cases c with
  | function f =>
    obtain ⟨n, hf⟩ := hfrom
    exact ⟨n, hf.of_le hbody hbuiltin⟩
  | cls c => exact fun m hm => Function.From.of_le (hfrom m hm) hbody hbuiltin
  | _ => trivial

namespace Compiler

/-- One more unit. -/
theorem Ok.cons {us : List (List Stmt)} {c : Compiler} (h : c.Ok (.ofUnits us)) (ss : List Stmt) :
    c.Ok (.ofUnits (ss :: us)) := by
  refine ⟨h.isGlobal, h.symbols, h.pool.of_le ?_ fun _ hn => hn, h.blanks⟩
  rintro b ⟨u, hu, hvisits⟩
  exact ⟨u, List.mem_cons_of_mem _ hu, hvisits⟩

theorem symbolsOf_ok {B : Nat → Prop} (r : Registry) (hr : ∀ i < r.names.length, B i) :
    (symbolsOf r).isGlobal = true ∧ (symbolsOf r).Ok B := by
  unfold symbolsOf
  suffices ∀ (es : List (String × Nat)) (t : SymbolTable), (∀ e ∈ es, B e.2) → t.isGlobal = true →
      t.Ok B → (es.foldl (fun t e => (t.defineBuiltin e.2 e.1).2) t).isGlobal = true ∧
        (es.foldl (fun t e => (t.defineBuiltin e.2 e.1).2) t).Ok B from
    this _ _ (fun e he => hr e.2 (List.snd_lt_of_mem_zipIdx he)) rfl ⟨Scope.bounded_empty 0, rfl⟩
  intro es
  induction es with
  | nil => exact fun t _ hglobal hok => ⟨hglobal, hok⟩
  | cons e es ih =>
    intro t hes hglobal hok
    have hbind := @SymbolTable.bind_ok _ _ hok ⟨e.1, .builtin, e.2, true⟩ (hes e List.mem_cons_self) nofun
    exact ih _ (fun e' he' => hes e' (List.mem_cons_of_mem _ he')) (hbind.2.isGlobal hglobal) hbind.1

theorem Built.ok {us : List (List Stmt)} {c : Compiler} (h : Built us c) : c.Ok (.ofUnits us) := by
  induction h with
  | new r nulls optimize =>
    have hsymbols := symbolsOf_ok (B := fun _ => True) r fun _ _ => trivial
    refine ⟨hsymbols.1, hsymbols.2, ?_, fun _ _ => trivial⟩
    intro k hk
    obtain ⟨-, rfl⟩ := Array.mem_replicate.mp hk
    trivial
  | bind name constant _ ih =>
    obtain ⟨hok, hgrows, -⟩ := SymbolTable.define_ok ih.symbols name constant
    exact ⟨hgrows.isGlobal ih.isGlobal, hok, ih.pool, ih.blanks⟩
  | builtin index name _ ih =>
    have hbind := @SymbolTable.bind_ok _ _ ih.symbols ⟨name, .builtin, index, true⟩ trivial nofun
    exact ⟨hbind.2.isGlobal ih.isGlobal, hbind.1, ih.pool, ih.blanks⟩
  | compile _ hcompile ih => exact (compile_laid hcompile (ih.cons _) (covers_unit _ _)).1

/-- The block of the next unit has a layout, and so has every function of the pool. -/
theorem Built.laid {us : List (List Stmt)} {c c' : Compiler} {p : Program} {unit : UnitCode}
    (h : Built us c) (hcompile : c.compile p = .ok (unit, c')) :
    c'.Ok (.ofUnits (c.statements p :: us)) ∧ ∃ code notes,
      Lays .top (.unit (c.statements p)) 0 code notes ∧
        (Function.main unit.code unit.debug).Holds code := by
  obtain ⟨hok, code, notes, hlays, hholds, -⟩ := compile_laid hcompile (h.ok.cons _) (covers_unit _ _)
  exact ⟨hok, code, notes, hlays, hholds⟩

end Compiler

end ScriptMachine
