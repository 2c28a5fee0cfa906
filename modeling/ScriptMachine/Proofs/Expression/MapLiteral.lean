import ScriptMachine.Proofs.Containers.Basic
import ScriptMachine.Proofs.Expression.Compile

/-!
# Ordered map literals

An element without a key is put under the next index: the integer after the largest integer key so far. The keys are
said by recursion on the elements (`Element.keysFrom`); the code of a literal pushes them and the values in turn, and
the map is that of the entries from left to right (`realizes_mapLiteral`).

The index is advanced by an addition that wraps. Up to there it is larger than all keys so far, but for the last
integer itself (`Element.lt_nextIndex`), which has no successor: an explicit key that is the last integer leaves the
index where it is, and an index that is the last integer is followed by the first one.
-/

namespace ScriptMachine

open CompileM

/-! ## Keys -/

section

variable {next k : Int64}

theorem le_nextIndexAfter (span : Span) : next ≤ nextIndexAfter next (some (.literal (.int k) span)) := by
  change next ≤ if next ≤ k + 1 then k + 1 else next
  grind

/-- The last integer has no successor. -/
theorem lt_nextIndexAfter (span : Span) (h : k ≠ Int64.maxValue) :
    k < nextIndexAfter next (some (.literal (.int k) span)) := by
  change k < if next ≤ k + 1 then k + 1 else next
  grind

end

namespace Element

/-- The explicit keys of a literal are integer literals. -/
def IntegerKeyed (es : List Element) : Prop :=
  ∀ e ∈ es, ∀ key, e.key = some key → ∃ k span, key = .literal (.int k) span

/-- The key of an element where the index has come to `next`. -/
def keyAt (next : Int64) (e : Element) : Int64 :=
  match e.key with
  | some (.literal (.int k) _) => k
  | _ => next

/-- The index behind an element. -/
def indexAfter (next : Int64) (e : Element) : Int64 :=
  match e.key with
  | some key => nextIndexAfter next (some key)
  | none => next + 1

/-- The keys of elements in turn where the index has come to `next`. -/
def keysFrom (next : Int64) : List Element → List Int64
  | [] => []
  | e :: es => e.keyAt next :: keysFrom (indexAfter next e) es

/-- The keys of the elements of a literal, explicit and implicit ones. -/
def keys (es : List Element) : List Int64 := keysFrom 0 es

/-- The index behind the elements: the key of a further one that has none. -/
def nextIndex (es : List Element) : Int64 := es.foldl indexAfter 0

/-- An element without a key has got the last integer. -/
def Overruns (es : List Element) : Prop :=
  ∃ before value after, es = before ++ ⟨none, value⟩ :: after ∧ nextIndex before = Int64.maxValue

theorem length_keysFrom (next : Int64) (es : List Element) : (keysFrom next es).length = es.length := by
  induction es generalizing next with
  | nil => rfl
  | cons e es ih => simp [keysFrom, ih]

theorem keysFrom_append (next : Int64) (es fs : List Element) :
    keysFrom next (es ++ fs) = keysFrom next es ++ keysFrom (es.foldl indexAfter next) fs := by
  induction es generalizing next with
  | nil => rfl
  | cons e es ih => simp [keysFrom, ih]

theorem nextIndex_append_singleton (es : List Element) (e : Element) :
    nextIndex (es ++ [e]) = indexAfter (nextIndex es) e := by
  simp [nextIndex]

theorem Overruns.append {es : List Element} (h : Overruns es) (fs : List Element) : Overruns (es ++ fs) := by
  obtain ⟨before, value, after, rfl, hlast⟩ := h
  exact ⟨before, value, after ++ fs, by simp, hlast⟩

/-- Elements with keys only. -/
theorem not_overruns_of_keyed {es : List Element} (h : ∀ e ∈ es, e.key.isSome) : ¬ Overruns es := by
  rintro ⟨before, value, after, rfl, -⟩
  have hnone := h ⟨none, value⟩ (List.mem_append_right _ List.mem_cons_self)
  cases hnone

/-- The step: from one element to the next the index passes the key of the element, unless that is the last integer. -/
theorem lt_indexAfter {next : Int64} {e : Element} (hkey : IntegerKeyed [e])
    (hlast : e.key = none → next ≠ Int64.maxValue) :
    next ≤ indexAfter next e ∧ (e.keyAt next ≠ Int64.maxValue → e.keyAt next < indexAfter next e) := by
  obtain ⟨key, value⟩ := e
  cases key with
  | none =>
    have hnext := hlast rfl
    have hlt : next < next + 1 := by grind
    exact ⟨Int64.le_of_lt hlt, fun _ => hlt⟩
  | some key =>
    obtain ⟨k, span, rfl⟩ := hkey _ List.mem_cons_self key rfl
    exact ⟨le_nextIndexAfter span, lt_nextIndexAfter span⟩

/-- As long as no element without a key has got the last integer, the index is larger than all other keys so far. -/
theorem lt_nextIndex {es : List Element} (hkeys : IntegerKeyed es) (h : ¬ Overruns es) :
    ∀ k ∈ keys es, k ≠ Int64.maxValue → k < nextIndex es := by
  induction es using List.reverseRecOn with
  | nil => nofun
  | append_singleton es e ih =>
    have hes : IntegerKeyed es := fun f hf => hkeys f (List.mem_append_left _ hf)
    have he : IntegerKeyed [e] := fun f hf => hkeys f (List.mem_append_right _ hf)
    have hbefore := ih hes fun hes => h (hes.append [e])
    have hlast : e.key = none → nextIndex es ≠ Int64.maxValue := by
      rintro hnone hlast
      obtain ⟨key, value⟩ := e
      obtain rfl : key = none := hnone
      exact h ⟨es, value, [], rfl, hlast⟩
    obtain ⟨hle, hlt⟩ := lt_indexAfter he hlast
    intro k hk hne
    rw [nextIndex_append_singleton]
    rw [keys, keysFrom_append] at hk
    rcases List.mem_append.mp hk with hk | hk
    · exact Int64.lt_of_lt_of_le (hbefore k hk hne) hle
    · obtain rfl : k = e.keyAt (nextIndex es) := List.mem_singleton.mp hk
      exact hlt hne

/-- So the index is a new key, unless it is the last integer. -/
theorem nextIndex_mem_keys {es : List Element} (hkeys : IntegerKeyed es) (h : ¬ Overruns es) :
    nextIndex es ∈ keys es ↔ nextIndex es = Int64.maxValue ∧ Int64.maxValue ∈ keys es := by
  constructor
  · intro hmem
    have hlast : nextIndex es = Int64.maxValue := by
      by_contra hne
      exact Int64.lt_irrefl (lt_nextIndex hkeys h _ hmem hne)
    exact ⟨hlast, hlast ▸ hmem⟩
  · rintro ⟨hlast, hmem⟩
    rwa [hlast]

/-- The entries of a literal whose values have been evaluated. -/
def entries (es : List Element) (vs : List Value) : List (Key × Value) := ((keys es).map Key.int).zip vs

end Element

/-! ## Entries -/

/-- Among entries that are written from left to right, `e` is put behind those there are, which stay as they are, and
keeps this place. -/
structure Dict.TakesPlace (before : List (Key × Value)) (e : Key × Value) (after : List (Key × Value)) : Prop where
  added : (ofList (before ++ [e])).toList = (ofList before).toList ++ [e]
  kept : (ofList (before ++ [e])).keys <+: (ofList (before ++ e :: after)).keys

theorem Key.eq_of_beq_int {k : Key} {n : Int64} (h : (k == .int n) = true) : k = .int n := by
  have hcanonical := (beq_iff_canonical k (.int n)).mp h
  cases k with
  | int m => exact hcanonical
  | _ => cases hcanonical

/-- An integer that is none of the keys so far. -/
theorem Dict.takesPlace_of_new {before after : List (Key × Value)} {n : Int64} {v : Value}
    (h : Key.int n ∉ before.map (·.1)) : TakesPlace before (.int n, v) after where
  added := by
    rw [ofList_append]
    refine toList_insert_of_new (fun l hl => ?_) v
    rw [Bool.eq_false_iff]
    intro hsame
    exact h (Key.eq_of_beq_int hsame ▸ mem_keys_ofList hl)
  kept := by
    have hplaces := keys_ofList_append (before ++ [(Key.int n, v)]) after
    rwa [List.append_assoc] at hplaces

/-! ## Evaluation -/

/-- Make an ordered map of entries from left to right. -/
def Eval.orderedMap (es : List (Key × Value)) : Eval Value :=
  modifyGet fun s =>
    let (v, heap) := s.heap.newMap (Dict.ofList es)
    (v, { s with heap })

/-- Evaluate an ordered map literal with integer keys; `eval` tells the meaning of the values. -/
def Element.evalMap (eval : Expr → Eval Value) (es : List Element) : Eval Value := do
  let vs ← es.mapM fun e => eval e.value
  Eval.orderedMap (entries es vs)

/-- Keys and values as they lie on the stack. -/
def Element.stacked : List Int64 → List Value → List Value
  | k :: ks, v :: vs => .int k :: v :: stacked ks vs
  | _, _ => []

theorem Element.length_stacked {ks : List Int64} {vs : List Value} (h : ks.length = vs.length) :
    (stacked ks vs).length = 2 * vs.length := by
  induction ks generalizing vs with
  | nil =>
    obtain rfl := List.eq_nil_of_length_eq_zero h.symm
    rfl
  | cons k ks ih =>
    obtain ⟨v, vs, rfl⟩ := List.exists_cons_of_length_eq_add_one h.symm
    have htail := ih (Nat.succ.inj h)
    simp only [stacked, List.length_cons, htail]
    omega

/-- The machine collects the entries in turn. -/
theorem Exec.collectEntries_stacked (d : Dict Key Value) (ks : List Int64) (vs : List Value) :
    collectEntries d (Element.stacked ks vs) =
      pure (((ks.map Key.int).zip vs).foldl (fun d e => d.insert e.1 e.2) d) := by
  induction ks generalizing d vs with
  | nil => rfl
  | cons k ks ih =>
    cases vs with
    | nil => rfl
    | cons v vs =>
      simp only [Element.stacked, collectEntries, keyOf, Value.key?, pure_bind, ih]
      rfl

/-- The instruction that makes an ordered map. -/
theorem Stage.carries_orderedMap {C : Stage} {ip : Nat} {vs ws : List Value} {span : Span}
    {es : List (Key × Value)} (hi : C.frame.closure.function.HasAt ip [⟨.orderedMap, [ws.length], span⟩])
    (hk : ws.length < 65536) (hroom : C.HasRoom vs)
    (hsize : C.start.machine.sp + (vs ++ ws).length ≤ C.start.machine.stack.size)
    (hentries : Exec.collectEntries .empty ws = pure (Dict.ofList es)) :
    C.Carries ip (vs ++ ws) (Eval.orderedMap es) (ip + 3) fun v => vs ++ [v] := by
  refine carries_of_step hi Exec.makeMap rfl fun st => ?_
  refine Exec.Triple.bindValue (Inside.operand (hi.word rfl hk)) ?_
  refine Exec.Triple.bindValue (Inside.takeTop ws hsize) ?_
  rw [hentries, pure_bind]
  exact (Inside.allocated hroom).mono (fun _ hs => hs) (fun _ s hs => ⟨_, _, rfl, hs⟩) fun _ _ he => he.elim

section

variable {t : SymbolTable} {R : Regions} {eval : Expr → Eval Value} {m : Nat} {span : Span}

/-- A key and a value, and then the other ones on top of them. -/
theorem realizes_entry {x x' x'' : CompileM Unit} {k : Int64} {y : Eval Value} {ys : Eval (List Value)}
    {ks : List Int64} {n : Nat} (hk : Realizes t 1 [] x (pure (.int k)) fun v => [v])
    (hy : Realizes t m [] x' y fun v => [v]) (hys : Realizes t n [] x'' ys (Element.stacked ks)) :
    Realizes t (max (m + 1) (n + 2)) []
      (do
        x
        x'
        x'')
      (do
        let v ← y
        let vs ← ys
        return v :: vs) (Element.stacked (k :: ks)) := by
  refine (hk.mono (by omega)).andThen ?_
  have hvalue : Realizes t (max (m + 1) (n + 2)) [.int k] x' y fun v => [.int k, v] :=
    (hy.above [.int k]).mono (by simp only [List.length_singleton]; omega)
  refine hvalue.seq fun v => ?_
  have hrest : Realizes t (max (m + 1) (n + 2)) [.int k, v] x'' ys
      fun vs => .int k :: v :: Element.stacked ks vs :=
    (hys.above [.int k, v]).mono (by simp only [List.length_cons, List.length_nil]; omega)
  exact hrest.map fun _ => rfl

/-- By induction on the elements, with the index as it has come. -/
theorem realizes_mapElements {es : List Element} (next : Int64) (hkeys : Element.IntegerKeyed es)
    (hvalues : ∀ e ∈ es, Realizes t m [] (expr R e.value) (eval e.value) fun v => [v]) :
    Realizes t (m + 2 * es.length) [] (mapElements R span next es) (es.mapM fun e => eval e.value)
      (Element.stacked (Element.keysFrom next es)) := by
  induction es generalizing next with
  | nil =>
    rw [mapElements, List.mapM_nil]
    exact realizes_nothing rfl
  | cons e es ih =>
    have hes : Element.IntegerKeyed es := fun f hf => hkeys f (List.mem_cons_of_mem _ hf)
    have hrest := ih (Element.indexAfter next e) hes fun f hf => hvalues f (List.mem_cons_of_mem _ hf)
    have hvalue := hvalues e List.mem_cons_self
    rw [List.mapM_cons]
    obtain ⟨key, value⟩ := e
    cases key with
    | none =>
      rw [mapElements]
      refine (realizes_entry (realizes_constant rfl) hvalue hrest).mono ?_
      simp only [List.length_cons]
      omega
    | some key =>
      obtain ⟨k, keySpan, rfl⟩ := hkeys _ List.mem_cons_self key rfl
      rw [mapElements, expr]
      refine (realizes_entry (realizes_literal (.int k) keySpan) hvalue hrest).mono ?_
      simp only [List.length_cons]
      omega

theorem length_of_mapM {es : List Element} {st st' : Store} {vs : List Value}
    (h : (es.mapM fun e => eval e.value).run st = .ok vs st') : vs.length = es.length := by
  induction es generalizing st vs with
  | nil =>
    rw [List.mapM_nil] at h
    cases h
    rfl
  | cons e es ih =>
    rw [List.mapM_cons] at h
    obtain ⟨v, st₁, -, h⟩ := Eval.bind_ok h
    obtain ⟨ws, st₂, hws, h⟩ := Eval.bind_ok h
    cases h
    simp [ih hws]

/-- A literal whose elements an instruction can count. -/
theorem realizes_mapLiteral {es : List Element} {ordered : Bool} (hmap : Element.makeOrderedMap es ordered = true)
    (hkeys : Element.IntegerKeyed es) (hcount : es.length < 32768) (hm : 1 ≤ m)
    (hvalues : ∀ e ∈ es, Realizes t m [] (expr R e.value) (eval e.value) fun v => [v]) :
    Realizes t (m + 2 * es.length) [] (expr R (.array es ordered span)) (Element.evalMap eval es) fun v => [v] := by
  have hall : Realizes t (m + 2 * es.length) [] (mapElements R span 0 es) (es.mapM fun e => eval e.value)
      (Element.stacked (Element.keys es)) := realizes_mapElements 0 hkeys hvalues
  intro σ σ' hσ hrun
  rw [expr] at hrun
  simp only [hmap, if_true] at hrun
  obtain ⟨_, σ₁, h₁, h₂⟩ := bind_ok hrun
  obtain rfl := put_ok h₂
  obtain ⟨a, ha, hitems⟩ := hall σ σ₁ hσ h₁
  refine ⟨_, ha.emit .orderedMap [es.length * 2] span rfl, fun C hat hloads vs hroom => ?_⟩
  refine (hitems C hat.left hloads vs hroom).bindRun fun ws st st' hws => ?_
  have hlength : (Element.keys es).length = ws.length :=
    (Element.length_keysFrom 0 es).trans (length_of_mapM hws).symm
  have hstacked : (Element.stacked (Element.keys es) ws).length = es.length * 2 := by
    rw [Element.length_stacked hlength, length_of_mapM hws, Nat.mul_comm]
  have hmake := hat.right
  rw [← ha.size, ← hstacked] at hmake
  refine Stage.carries_orderedMap hmake (by omega) (Stage.hasRoom (by omega)) ?_ ?_
  · rw [List.length_append, hstacked]
    omega
  · exact Exec.collectEntries_stacked .empty _ _

end

/-! ## Results -/

/-- The code of an ordered map literal with integer keys makes the map of its entries from left to right. -/
theorem Expr.mapLiteral_evaluates {R : Regions} {es : List Element} {ordered : Bool} {span : Span}
    {σ σ' : CompileState} (eval : Expr → Eval Value) {m : Nat}
    (hcompiled : (CompileM.expr R (.array es ordered span)).run σ = .ok () σ')
    (hmap : Element.makeOrderedMap es ordered = true) (hkeys : Element.IntegerKeyed es)
    (hcount : es.length < 32768) (hm : 1 ≤ m)
    (hvalues : ∀ e ∈ es, Realizes σ.symbols m [] (CompileM.expr R e.value) (eval e.value) fun v => [v]) :
    ∃ seg, σ.Appends σ' seg ∧ ∀ C : Stage, C.Ready → C.frame.ip = σ.size →
      C.frame.closure.function.HasAt σ.size seg → σ'.pool.Loads C.start.machine.constants →
      C.start.machine.sp + (m + 2 * es.length) ≤ C.start.machine.stack.size →
        C.Ends σ'.size (fun v => [v]) C.start ((Element.evalMap eval es).run C.store) := by
  obtain ⟨seg, happends, hperforms⟩ := realizes_mapLiteral hmap hkeys hcount hm hvalues σ σ' rfl hcompiled
  refine ⟨seg, happends, fun C hready hip hat hloads hroom => ?_⟩
  have hstart := hready.at_start
  rw [hip] at hstart
  exact hperforms C hat hloads [] hroom C.store C.start hstart

/-- The entry of an element without a key stands where the element does. -/
theorem Element.entries_of_unkeyed {before after : List Element} {value : Expr} {ws us : List Value} {v : Value}
    (hlength : ws.length = before.length) :
    ∃ later, entries (before ++ ⟨none, value⟩ :: after) (ws ++ v :: us) =
      entries before ws ++ (.int (nextIndex before), v) :: later := by
  refine ⟨((keysFrom (nextIndex before + 1) after).map Key.int).zip us, ?_⟩
  have hkeys : keys (before ++ ⟨none, value⟩ :: after) =
      keys before ++ nextIndex before :: keysFrom (nextIndex before + 1) after := keysFrom_append 0 before _
  have hbefore : ((keys before).map Key.int).length = ws.length := by
    rw [List.length_map, keys, length_keysFrom, hlength]
  rw [entries, hkeys, List.map_append, List.zip_append hbefore]
  rfl

/-- An ordered map literal with integer keys makes the map of its entries from left to right. As long as no element
without a key has got the last integer, the key of such an element differs from all keys before it, unless it is the
last integer itself and an element before has that key. If it differs, the entry of the element is put behind those
there are and leaves them alone, and it keeps its place. -/
theorem Expr.mapLiteral_unkeyed_takes_place {R : Regions} {es : List Element} {ordered : Bool} {span : Span}
    {σ σ' : CompileState} (eval : Expr → Eval Value) {m : Nat}
    (hcompiled : (CompileM.expr R (.array es ordered span)).run σ = .ok () σ')
    (hmap : Element.makeOrderedMap es ordered = true) (hkeys : Element.IntegerKeyed es)
    (hcount : es.length < 32768) (hm : 1 ≤ m)
    (hvalues : ∀ e ∈ es, Realizes σ.symbols m [] (CompileM.expr R e.value) (eval e.value) fun v => [v]) :
    (∃ seg, σ.Appends σ' seg ∧ ∀ C : Stage, C.Ready → C.frame.ip = σ.size →
      C.frame.closure.function.HasAt σ.size seg → σ'.pool.Loads C.start.machine.constants →
      C.start.machine.sp + (m + 2 * es.length) ≤ C.start.machine.stack.size →
        C.Ends σ'.size (fun v => [v]) C.start ((Element.evalMap eval es).run C.store)) ∧
    ∀ before value after, es = before ++ ⟨none, value⟩ :: after → ¬ Element.Overruns before →
      (Element.nextIndex before ∈ Element.keys before ↔
        Element.nextIndex before = Int64.maxValue ∧ Int64.maxValue ∈ Element.keys before) ∧
      ∀ ws v us, ws.length = before.length → ∃ later,
        Element.entries es (ws ++ v :: us) =
          Element.entries before ws ++ (.int (Element.nextIndex before), v) :: later ∧
        (Element.nextIndex before ∉ Element.keys before →
          Dict.TakesPlace (Element.entries before ws) (.int (Element.nextIndex before), v) later) := by
  refine ⟨mapLiteral_evaluates eval hcompiled hmap hkeys hcount hm hvalues, ?_⟩
  rintro before value after rfl hoverruns
  have hbefore : Element.IntegerKeyed before := fun e he => hkeys e (List.mem_append_left _ he)
  refine ⟨Element.nextIndex_mem_keys hbefore hoverruns, fun ws v us hlength => ?_⟩
  obtain ⟨later, hentries⟩ := Element.entries_of_unkeyed hlength
  refine ⟨later, hentries, fun hnew => Dict.takesPlace_of_new fun hmem => hnew ?_⟩
  rw [Element.entries, List.map_fst_zip] at hmem
  · obtain ⟨k, hk, heq⟩ := List.mem_map.mp hmem
    cases heq
    exact hk
  · rw [List.length_map, Element.keys, Element.length_keysFrom, hlength]

/-- The code of a literal with `n` elements that consist of literals, with a pool of its own. -/
def Element.literalCode (n : Nat) : List Emitted :=
  (List.range (n * 2)).map (fun place => ⟨.constant, [place], .dummy⟩) ++ [⟨.orderedMap, [n * 2], .dummy⟩]

/-- `7 => "a"` and `"b"` -/
def sevenAndNext : List Element :=
  [⟨some (Build.int 7), Build.string "a"⟩, ⟨none, Build.string "b"⟩]

theorem compile_sevenAndNext :
    (CompileM.expr [] (.array sevenAndNext false .dummy)).run (.ofCode #[] []) =
      .ok () (.ofCode #[.int 7, .str "a", .int 8, .str "b"] (Element.literalCode 2)) := by
  simp only [sevenAndNext, Build.int, Build.string, CompileM.expr, Element.makeOrderedMap, mapElements,
    CompileM.literal]
  rfl

theorem sevenAndNext_takes_place :
    (∃ t, (Stage.atBlock #[.int 7, .str "a", .int 8, .str "b"] (Element.literalCode 2) 5).start.Reaches t ∧
      (Stage.atBlock #[.int 7, .str "a", .int 8, .str "b"] (Element.literalCode 2) 5).At 15 [.map 0]
        ⟨(Heap.empty.newMap (.ofList [(.int 7, .str "a"), (.int 8, .str "b")])).2, #[]⟩ t) ∧
    Element.nextIndex (sevenAndNext.take 1) = 8 ∧ (8 : Int64) ∉ Element.keys (sevenAndNext.take 1) ∧
    Dict.TakesPlace [(.int 7, .str "a")] (.int 8, .str "b") [] := by
  have hplain : ∀ e ∈ sevenAndNext, ∃ s, e.value = Build.string s := by
    simp [sevenAndNext]
  obtain ⟨⟨seg, happends, hends⟩, hplaces⟩ := Expr.mapLiteral_unkeyed_takes_place
    (Expr.eval SymbolTable.empty.globalSlot?) (m := 1) compile_sevenAndNext (by decide)
    (by simp [Element.IntegerKeyed, sevenAndNext, Build.int]) (by decide) (by decide) (by
      intro e he
      obtain ⟨s, hs⟩ := hplain e he
      rw [hs]
      exact realizes_expr [] (Build.string s) trivial)
  have hseg : Element.literalCode 2 = seg := happends.items
  subst hseg
  refine ⟨?_, ?_⟩
  · have hloads : Pool.Loads #[.int 7, .str "a", .int 8, .str "b"] #[.int 7, .str "a", .int 8, .str "b"] :=
      Pool.loads_load #[] Heap.empty (by simp)
    exact hends (Stage.atBlock _ _ 5) ⟨rfl, rfl⟩ rfl (Stage.hasAt_atBlock happends.sized) hloads (by decide)
  · obtain ⟨hmem, hplace⟩ := hplaces (sevenAndNext.take 1) (Build.string "b") [] rfl
      (Element.not_overruns_of_keyed (by simp [sevenAndNext]))
    have hnew : Element.nextIndex (sevenAndNext.take 1) ∉ Element.keys (sevenAndNext.take 1) :=
      fun h => absurd (hmem.mp h).1 (by decide)
    obtain ⟨later, hentries, htakes⟩ := hplace [.str "a"] (.str "b") [] rfl
    obtain rfl : later = [] := (List.cons.inj (List.cons.inj hentries).2).2.symm
    exact ⟨by decide, hnew, htakes hnew⟩

/-- The last but one integer and the last one as keys, and then an element without a key. -/
def lastKeys : List Element :=
  [⟨some (Build.int 9223372036854775806), Build.string "a"⟩,
    ⟨some (Build.int 9223372036854775807), Build.string "b"⟩, ⟨none, Build.string "c"⟩]

def lastKeys.pool : Pool :=
  #[.int 9223372036854775806, .str "a", .int 9223372036854775807, .str "b", .int 9223372036854775807, .str "c"]

def lastKeys.stage : Stage :=
  .atBlock
    #[.int 9223372036854775806, .str "a", .int 9223372036854775807, .str "b", .int 9223372036854775807, .str "c"]
    (Element.literalCode 3) 7

theorem compile_lastKeys :
    (CompileM.expr [] (.array lastKeys false .dummy)).run (.ofCode #[] []) =
      .ok () (.ofCode lastKeys.pool (Element.literalCode 3)) := by
  simp only [lastKeys, Build.int, Build.string, CompileM.expr, Element.makeOrderedMap, mapElements,
    CompileM.literal]
  rfl

/-- The element without a key gets the last integer, which is the key of the element before it, and overwrites the entry
of that: three elements make two entries. -/
theorem lastKeys_overwritten :
    Element.IntegerKeyed lastKeys ∧
    Element.nextIndex (lastKeys.take 2) ∈ Element.keys (lastKeys.take 2) ∧
    ∃ d : Dict Key Value, d.toList = [(.int 9223372036854775806, .str "a"), (.int 9223372036854775807, .str "c")] ∧
      ∃ t, lastKeys.stage.start.Reaches t ∧ lastKeys.stage.At 21 [.map 0] ⟨(Heap.empty.newMap d).2, #[]⟩ t := by
  have hkeys : Element.IntegerKeyed lastKeys := by
    simp [Element.IntegerKeyed, lastKeys, Build.int]
  have hplain : ∀ e ∈ lastKeys, ∃ s, e.value = Build.string s := by
    simp [lastKeys]
  obtain ⟨seg, happends, hends⟩ := Expr.mapLiteral_evaluates
    (Expr.eval SymbolTable.empty.globalSlot?) (m := 1) compile_lastKeys (by decide) hkeys (by decide)
    (by decide) (by
      intro e he
      obtain ⟨s, hs⟩ := hplain e he
      rw [hs]
      exact realizes_expr [] (Build.string s) trivial)
  have hseg : Element.literalCode 3 = seg := happends.items
  subst hseg
  have hloads : lastKeys.pool.Loads lastKeys.stage.start.machine.constants :=
    Pool.loads_load #[] Heap.empty (by simp)
  refine ⟨hkeys, by decide, .ofList (Element.entries lastKeys [.str "a", .str "b", .str "c"]), ?_, ?_⟩
  · cbv
  · exact hends lastKeys.stage ⟨rfl, rfl⟩ rfl (Stage.hasAt_atBlock happends.sized) hloads (by decide)

end ScriptMachine
