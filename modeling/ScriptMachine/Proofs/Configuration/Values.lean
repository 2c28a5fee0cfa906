import Mathlib.Algebra.Ring.Nat
import Mathlib.Data.List.TakeWhile
import Mathlib.Logic.Unique
import ScriptMachine.Config.Load

/-!
# Values of a configuration

Three settings count something. What a file or a variable of the environment gives for one of them, and whether that is
in its range, is said once for all of them.

* `Environment.Says` — the texts of numbers, said without a reader.
* `CountField` — the settings that count, with their variables, entries and ranges.
* `Environment.Gives`, `Environment.Spoils` — what a variable gives, and when it gives nothing usable.

Checking the entries of a file (`ProjectConfig.validate_eq_ok`) and reading a variable (`Environment.count_eq_ok`) allow
the same ranges.
-/

namespace ScriptMachine

/-! ## Numbers in texts -/

namespace Environment

/-- A text that says a number: decimal digits, a plus sign before them at most, and blanks around. -/
def Says (text : String) (n : Nat) : Prop :=
  ∃ before sign digits after : List Char, text.toList = before ++ (sign ++ digits) ++ after ∧
    (∀ c ∈ before ++ after, Text.isBlank c = true) ∧ (sign = [] ∨ sign = ['+']) ∧
    digits ≠ [] ∧ (∀ c ∈ digits, c.isDigit = true) ∧ Decimal.digitsValue digits = n

theorem toNat_of_isDigit {c : Char} (h : c.isDigit = true) : 48 ≤ c.toNat ∧ c.toNat ≤ 57 := by
  simpa [Char.isDigit, UInt32.le_iff_toNat_le] using h

theorem not_isBlank_of_isDigit {c : Char} (h : c.isDigit = true) : Text.isBlank c = false := by
  obtain ⟨hlow, hhigh⟩ := toNat_of_isDigit h
  simp only [Text.isBlank]
  grind

theorem trimBlanks_split (s : String) : ∃ before after : List Char,
    s.toList = before ++ (Text.trimBlanks s).toList ++ after ∧ ∀ c ∈ before ++ after, Text.isBlank c = true := by
  have hback (cs : List Char) :
      (cs.reverse.dropWhile Text.isBlank).reverse ++ (cs.reverse.takeWhile Text.isBlank).reverse = cs := by
    rw [← List.reverse_append, List.takeWhile_append_dropWhile, List.reverse_reverse]
  refine ⟨s.toList.takeWhile Text.isBlank,
    ((s.toList.dropWhile Text.isBlank).reverse.takeWhile Text.isBlank).reverse, ?_, ?_⟩
  · rw [Text.trimBlanks, String.toList_ofList, List.append_assoc, hback, List.takeWhile_append_dropWhile]
  · intro c hc
    rcases List.mem_append.mp hc with hc | hc
    · exact List.mem_takeWhile_imp hc
    · exact List.mem_takeWhile_imp (List.mem_reverse.mp hc)

theorem dropWhile_isBlank {blanks core rest : List Char} (hblanks : ∀ c ∈ blanks, Text.isBlank c = true)
    (hne : core ≠ []) (hcore : ∀ c ∈ core, Text.isBlank c = false) :
    (blanks ++ (core ++ rest)).dropWhile Text.isBlank = core ++ rest := by
  rw [List.dropWhile_append_of_pos hblanks]
  obtain ⟨c, cs, rfl⟩ := List.exists_cons_of_ne_nil hne
  have hc := hcore c List.mem_cons_self
  exact List.dropWhile_cons_of_neg (by simp [hc])

/-- What stands between blanks. -/
theorem trimBlanks_eq {s : String} {before core after : List Char} (hs : s.toList = before ++ core ++ after)
    (hblank : ∀ c ∈ before ++ after, Text.isBlank c = true) (hne : core ≠ [])
    (hcore : ∀ c ∈ core, Text.isBlank c = false) : (Text.trimBlanks s).toList = core := by
  have hfront : s.toList.dropWhile Text.isBlank = core ++ after := by
    rw [hs, List.append_assoc]
    exact dropWhile_isBlank (fun c hc => hblank c (List.mem_append_left _ hc)) hne hcore
  have hback : (core ++ after).reverse.dropWhile Text.isBlank = core.reverse := by
    have hturned : (after.reverse ++ (core.reverse ++ [])).dropWhile Text.isBlank = core.reverse ++ [] :=
      dropWhile_isBlank (fun c hc => hblank c (List.mem_append_right _ (List.mem_reverse.mp hc)))
        (fun h => hne (List.reverse_eq_nil_iff.mp h)) fun c hc => hcore c (List.mem_reverse.mp hc)
    simpa using hturned
  rw [Text.trimBlanks, String.toList_ofList, hfront, hback, List.reverse_reverse]

theorem readCount?_eq_some {text : String} {n : Nat} :
    readCount? text = some n ↔ ∃ sign digits : List Char, text.toList = sign ++ digits ∧
      (sign = [] ∨ sign = ['+']) ∧ digits ≠ [] ∧ (∀ c ∈ digits, c.isDigit = true) ∧
      Decimal.digitsValue digits = n ∧ n < Word.limit64 := by
  have hread (digits : List Char) :
      (if digits.isEmpty || !digits.all Char.isDigit then none
        else if Decimal.digitsValue digits < Word.limit64 then some (Decimal.digitsValue digits) else none) = some n ↔
      digits ≠ [] ∧ (∀ c ∈ digits, c.isDigit = true) ∧ Decimal.digitsValue digits = n ∧ n < Word.limit64 := by
    split
    · next h => grind
    · next h => grind
  unfold readCount?
  split
  · next ds hds =>
    dsimp only
    rw [hread]
    constructor
    · exact fun h => ⟨['+'], ds, hds, .inr rfl, h⟩
    · rintro ⟨sign, digits, htext, rfl | rfl, hne, hdigits, h⟩
      · -- a plus sign is no digit
        have hplus := hdigits '+' (by rw [← List.nil_append digits, ← htext, hds]; exact List.mem_cons_self)
        cases hplus
      · obtain rfl : ds = digits := (List.cons.inj (hds.symm.trans htext)).2
        exact ⟨hne, hdigits, h⟩
  · next hplus =>
    dsimp only
    rw [hread]
    constructor
    · exact fun h => ⟨[], text.toList, rfl, .inl rfl, h⟩
    · rintro ⟨sign, digits, htext, rfl | rfl, hne, hdigits, h⟩
      · obtain rfl : text.toList = digits := htext
        exact ⟨hne, hdigits, h⟩
      · exact (hplus digits htext).elim

/-- The number that is read from a text without the blanks around it. -/
theorem readCount?_trimBlanks {text : String} {n : Nat} :
    readCount? (Text.trimBlanks text) = some n ↔ Says text n ∧ n < Word.limit64 := by
  rw [readCount?_eq_some]
  constructor
  · rintro ⟨sign, digits, hcore, hsign, hne, hdigits, hvalue, hlt⟩
    obtain ⟨before, after, hsplit, hblank⟩ := trimBlanks_split text
    exact ⟨⟨before, sign, digits, after, hcore ▸ hsplit, hblank, hsign, hne, hdigits, hvalue⟩, hlt⟩
  · rintro ⟨⟨before, sign, digits, after, hsplit, hblank, hsign, hne, hdigits, hvalue⟩, hlt⟩
    have hcore : ∀ c ∈ sign ++ digits, Text.isBlank c = false := by
      intro c hc
      rcases List.mem_append.mp hc with hc | hc
      · rcases hsign with rfl | rfl
        · cases hc
        · obtain rfl := List.mem_singleton.mp hc
          rfl
      · exact not_isBlank_of_isDigit (hdigits c hc)
    refine ⟨sign, digits, trimBlanks_eq hsplit hblank ?_ hcore, hsign, hne, hdigits, hvalue, hlt⟩
    exact List.append_ne_nil_of_right_ne_nil sign hne

end Environment

section

variable {ε α β : Type} {x : Except ε α} {f : α → Except ε β}

theorem Except.bind_eq_ok {b : β} : x >>= f = .ok b ↔ ∃ a, x = .ok a ∧ f a = .ok b := by
  cases x <;> simp [bind, Except.bind]

theorem Except.bind_eq_error {e : ε} : x >>= f = .error e ↔ x = .error e ∨ ∃ a, x = .ok a ∧ f a = .error e := by
  cases x <;> simp [bind, Except.bind]

end

/-! ## Settings that count something -/

/-- The values inside a range. -/
def AllowedRange.Has (r : AllowedRange) (n : Nat) : Prop := r.low ≤ n ∧ n ≤ r.high

theorem AllowedRange.check_eq_ok {r : AllowedRange} {field : String} {n : Nat} :
    r.check field n = .ok () ↔ r.Has n := by
  unfold check Has
  split
  · next h => exact ⟨fun _ => h, fun _ => rfl⟩
  · next h => exact ⟨nofun, fun h' => absurd h' h⟩

theorem AllowedRange.check?_eq_ok {r : AllowedRange} {field : String} {v : Option Nat} :
    r.check? field v = .ok () ↔ ∀ n, v = some n → r.Has n := by
  cases v with
  | none => exact ⟨fun _ => nofun, fun _ => rfl⟩
  | some n =>
    rw [check?, check_eq_ok]
    exact ⟨fun h m hm => Option.some.inj hm ▸ h, fun h => h n rfl⟩

/-- A setting that counts something. -/
inductive CountField where
  | stackSize
  | maxFrames
  | globalsSize

@[simp] theorem MachineLimits.default_eq : (default : MachineLimits) = {} := rfl

@[simp] theorem CompilerChoices.default_eq : (default : CompilerChoices) = {} := rfl

namespace CountField

/-- The variable of the environment that sets it. -/
def envName : CountField → String
  | .stackSize => "KESTREL_STACK_SIZE"
  | .maxFrames => "KESTREL_MAX_FRAMES"
  | .globalsSize => "KESTREL_GLOBALS_SIZE"

def range : CountField → AllowedRange
  | .stackSize => ⟨16, 2 ^ 20⟩
  | .maxFrames => ⟨1, 2 ^ 16⟩
  | .globalsSize => ⟨0, 2 ^ 16⟩

/-- Its entry among the limits of a file. -/
def entry : CountField → MachineLimits → Option Nat
  | .stackSize => (·.stackSize)
  | .maxFrames => (·.maxFrames)
  | .globalsSize => (·.globalsSize)

/-- Its entry in a configuration. -/
def entryOf (f : CountField) (c : ProjectConfig) : Option Nat := c.vm.bind f.entry

/-- Its value among the settings. -/
def setting : CountField → Settings → Nat
  | .stackSize => (·.stackSize)
  | .maxFrames => (·.maxFrames)
  | .globalsSize => (·.globalsSize)

theorem range_high (f : CountField) : f.range.high < Word.limit64 := by
  cases f <;> decide

/-- The default passes the check. -/
theorem range_default (f : CountField) : f.range.Has (f.setting {}) := by
  cases f <;> exact ⟨by decide, by decide⟩

theorem setting_settings (f : CountField) (c : ProjectConfig) :
    f.setting c.settings = (f.entryOf c).getD (f.setting {}) := by
  obtain ⟨vm, compiler⟩ := c
  cases vm <;> cases f <;> rfl

/-- An entry of the second configuration wins, one that it does not have stays. -/
theorem entryOf_merge (f : CountField) (base other : ProjectConfig) :
    f.entryOf (base.merge other) = (f.entryOf other <|> f.entryOf base) := by
  obtain ⟨vm, compiler⟩ := base
  obtain ⟨vm', compiler'⟩ := other
  cases vm' with
  | none => rfl
  | some o => cases vm <;> cases f <;> simp [entryOf, entry, ProjectConfig.merge, ProjectConfig.mergeSections]

end CountField

/-- All entries are in their ranges. -/
def ProjectConfig.InRange (c : ProjectConfig) : Prop :=
  ∀ (f : CountField) (n : Nat), f.entryOf c = some n → f.range.Has n

theorem ProjectConfig.validate_eq_ok {c : ProjectConfig} : c.validate = .ok () ↔ c.InRange := by
  obtain ⟨vm, compiler⟩ := c
  cases vm with
  | none => exact ⟨fun _ f n => nofun, fun _ => rfl⟩
  | some vm =>
    simp only [validate, Except.bind_eq_ok, Unique.exists_iff, PUnit.default_eq_unit, AllowedRange.check?_eq_ok]
    constructor
    · rintro ⟨hstack, hframes, hglobals⟩ f
      cases f with
      | stackSize => exact hstack
      | maxFrames => exact hframes
      | globalsSize => exact hglobals
    · exact fun h => ⟨h .stackSize, h .maxFrames, h .globalsSize⟩

/-- The choice of the compiler in a configuration. -/
def ProjectConfig.optimizes (c : ProjectConfig) : Option Bool := c.compiler.bind (·.optimize)

theorem ProjectConfig.optimize_settings (c : ProjectConfig) : c.settings.optimize = c.optimizes.getD true := by
  obtain ⟨vm, compiler⟩ := c
  cases compiler <;> rfl

theorem ProjectConfig.optimizes_merge (base other : ProjectConfig) :
    (base.merge other).optimizes = (other.optimizes <|> base.optimizes) := by
  obtain ⟨vm, compiler⟩ := base
  obtain ⟨vm', compiler'⟩ := other
  cases compiler' with
  | none => rfl
  | some o => cases compiler <;> simp [optimizes, merge, mergeSections]

/-! ## The environment -/

namespace Environment

/-- What a variable gives for a setting with a range: nothing if it is not set. -/
def Gives (env : Environment) (name : String) (range : AllowedRange) (v : Option Nat) : Prop :=
  match v with
  | none => env.get? name = none
  | some n => ∃ text, env.get? name = some text ∧ Says text n ∧ range.Has n

/-- A variable is set and says no number in the range. -/
def Spoils (env : Environment) (name : String) (range : AllowedRange) : Prop :=
  ∃ text, env.get? name = some text ∧ ∀ n, Says text n → ¬ range.Has n

variable {env : Environment} {name : String} {range : AllowedRange}

theorem count_eq_ok (hhigh : range.high < Word.limit64) {v : Option Nat} :
    env.count name range = .ok v ↔ env.Gives name range v := by
  unfold count Gives
  cases hget : env.get? name with
  | none => cases v <;> simp
  | some text =>
    -- what the text says is read, if it is in the range
    have hread {n : Nat} (hn : Says text n) (hrange : range.Has n) :
        readCount? (Text.trimBlanks text) = some n :=
      readCount?_trimBlanks.mpr ⟨hn, Nat.lt_of_le_of_lt hrange.2 hhigh⟩
    dsimp only
    constructor
    · intro h
      split at h
      · cases h
      · next m hm =>
        cases hcheck : range.check name m with
        | error e => rw [hcheck] at h; cases h
        | ok u =>
          rw [hcheck] at h
          cases h
          exact ⟨text, rfl, (readCount?_trimBlanks.mp hm).1, AllowedRange.check_eq_ok.mp hcheck⟩
    · cases v with
      | none => nofun
      | some n =>
        rintro ⟨text', htext, hn, hrange⟩
        cases htext
        rw [hread hn hrange]
        dsimp only
        rw [AllowedRange.check_eq_ok.mpr hrange]
        rfl

theorem count_eq_error (hhigh : range.high < Word.limit64) :
    (∃ e, env.count name range = .error e) ↔ env.Spoils name range := by
  have hok (v : Option Nat) : env.count name range = .ok v ↔ env.Gives name range v := count_eq_ok hhigh
  constructor
  · rintro ⟨e, he⟩
    cases hget : env.get? name with
    | none =>
      have hnone := (hok none).mpr hget
      rw [he] at hnone
      cases hnone
    | some text =>
      refine ⟨text, hget, fun n hn hrange => ?_⟩
      have hsome := (hok (some n)).mpr ⟨text, hget, hn, hrange⟩
      rw [he] at hsome
      cases hsome
  · rintro ⟨text, hget, hbad⟩
    cases hcount : env.count name range with
    | error e => exact ⟨e, rfl⟩
    | ok v =>
      have hgives := (hok v).mp hcount
      cases v with
      | none => rw [Gives, hget] at hgives; cases hgives
      | some n =>
        obtain ⟨text', htext, hn, hrange⟩ := hgives
        cases hget.symm.trans htext
        exact (hbad n hn hrange).elim

/-- The environment as a whole gives every setting what its variable gives. -/
theorem config_of_ok {o : ProjectConfig} (h : env.config = .ok o) :
    (∀ f : CountField, env.Gives f.envName f.range (f.entryOf o)) ∧
      o.optimizes = (env.get? "KESTREL_OPTIMIZE").map isYes := by
  obtain ⟨stackSize, hstack, h⟩ := Except.bind_eq_ok.mp h
  obtain ⟨maxFrames, hframes, h⟩ := Except.bind_eq_ok.mp h
  obtain ⟨globalsSize, hglobals, h⟩ := Except.bind_eq_ok.mp h
  cases h
  constructor
  · intro f
    have hentry (vm : MachineLimits) (c : Option CompilerChoices) :
        f.entryOf ⟨if vm = {} then none else some vm, c⟩ = f.entry vm := by
      split
      · next hvm => cases f <;> simp [hvm, CountField.entryOf, CountField.entry]
      · rfl
    rw [hentry]
    cases f with
    | stackSize => exact (count_eq_ok CountField.stackSize.range_high).mp hstack
    | maxFrames => exact (count_eq_ok CountField.maxFrames.range_high).mp hframes
    | globalsSize => exact (count_eq_ok CountField.globalsSize.range_high).mp hglobals
  · cases env.get? "KESTREL_OPTIMIZE" <;> rfl

theorem config_eq_error :
    (∃ e, env.config = .error e) ↔ ∃ f : CountField, env.Spoils f.envName f.range := by
  constructor
  · rintro ⟨e, h⟩
    rcases Except.bind_eq_error.mp h with h | ⟨stackSize, -, h⟩
    · exact ⟨.stackSize, (count_eq_error CountField.stackSize.range_high).mp ⟨e, h⟩⟩
    rcases Except.bind_eq_error.mp h with h | ⟨maxFrames, -, h⟩
    · exact ⟨.maxFrames, (count_eq_error CountField.maxFrames.range_high).mp ⟨e, h⟩⟩
    rcases Except.bind_eq_error.mp h with h | ⟨globalsSize, -, h⟩
    · exact ⟨.globalsSize, (count_eq_error CountField.globalsSize.range_high).mp ⟨e, h⟩⟩
    cases h
  · rintro ⟨f, hspoils⟩
    cases hconfig : env.config with
    | error e => exact ⟨e, rfl⟩
    | ok o =>
      -- a variable that gives a value does not spoil it
      obtain ⟨e, he⟩ := (count_eq_error f.range_high).mpr hspoils
      have hgives := (count_eq_ok f.range_high).mpr ((config_of_ok hconfig).1 f)
      rw [he] at hgives
      cases hgives

end Environment

end ScriptMachine
