import Mathlib
import ScriptMachine.Proofs.Configuration.Values

/-!
# Where a configuration comes from

Loading a configuration looks for a file in a directory and then in those above it, checks what the first one found
says, lets the environment win over it, and puts defaults for the rest.

* `FileTree.Nearest`, `FileTree.Provides` — the file that counts, and what it says.
* `CountField.Effective` — the value of a setting, by variable, file and default.
* `LoadedConfig.Precedence` — what loading does, put together from these.

The directories above a path are those of its text: the one above `a/..` is `a`, although the path leads to the
directory in which `a` is. So the search runs upwards along paths without `..` only (`TreePath.names_searched`).
-/

namespace ScriptMachine

/-! ## The file -/

namespace FileTree

open LoadedConfig (fileName)

/-- Of the directories that are searched, the first one in which something stands under the name of the file. -/
def Nearest (t : FileTree) (start dir : TreePath) : Prop :=
  ∃ below above, start :: start.ancestors = below ++ dir :: above ∧ t.has (dir.child fileName) = true ∧
    ∀ d ∈ below, t.has (d.child fileName) = false

/-- No directory that is searched has anything under the name of the file. -/
def Bare (t : FileTree) (start : TreePath) : Prop :=
  ∀ dir ∈ start :: start.ancestors, t.has (dir.child fileName) = false

/-- The file in a directory can be read, is a configuration, and its entries are in their ranges. -/
def Provides (t : FileTree) (dir : TreePath) (c : ProjectConfig) : Prop :=
  ∃ text, t.find (dir.child fileName) = .entry (.file text) ∧
    (Toml.parse? text).bind ProjectConfig.ofTable? = some c ∧ c.InRange

variable {t : FileTree} {start dir : TreePath} {c : ProjectConfig}

theorem ofText_eq_ok {text : String} :
    ProjectConfig.ofText text = .ok c ↔ (Toml.parse? text).bind ProjectConfig.ofTable? = some c ∧ c.InRange := by
  unfold ProjectConfig.ofText
  split
  · next hnone => simp [hnone]
  · next d hsome =>
    rw [hsome, Except.bind_eq_ok]
    constructor
    · rintro ⟨_, hvalid, hc⟩
      cases hc
      exact ⟨rfl, ProjectConfig.validate_eq_ok.mp hvalid⟩
    · rintro ⟨hc, hrange⟩
      cases hc
      exact ⟨(), ProjectConfig.validate_eq_ok.mpr hrange, rfl⟩

theorem readFile_eq_ok : LoadedConfig.readFile t (dir.child fileName) = .ok c ↔ t.Provides dir c := by
  unfold LoadedConfig.readFile Provides
  split
  · next text hfind =>
    rw [ofText_eq_ok, hfind]
    constructor
    · exact fun h => ⟨text, rfl, h⟩
    · rintro ⟨text', htext, h⟩
      cases htext
      exact h
  · next hfind => simp [hfind]
  · next hfind => simp [hfind]
  · next hfind => simp [hfind]

theorem nearest_or_bare (t : FileTree) (start : TreePath) : (∃ dir, t.Nearest start dir) ∨ t.Bare start := by
  cases hfind : (start :: start.ancestors).find? fun d => t.has (d.child fileName) with
  | none => exact .inr fun dir hdir => Bool.eq_false_iff.mpr (List.find?_eq_none.mp hfind dir hdir)
  | some dir =>
    obtain ⟨hhas, below, above, hsplit, hbelow⟩ := List.find?_eq_some_iff_append.mp hfind
    exact .inl ⟨dir, below, above, hsplit, hhas, fun d hd => by simpa using hbelow d hd⟩

theorem search_of_nearest (h : t.Nearest start dir) :
    LoadedConfig.search t start =
      (LoadedConfig.readFile t (dir.child fileName)).map fun c => (some dir.trim, c) := by
  obtain ⟨below, above, hsplit, hhas, hbelow⟩ := h
  have hfind : ((start :: start.ancestors).find? fun d => t.has (d.child fileName)) = some dir :=
    List.find?_eq_some_iff_append.mpr ⟨hhas, below, above, hsplit, fun d hd => by simpa using hbelow d hd⟩
  unfold LoadedConfig.search
  rw [hfind]

theorem search_of_bare (h : t.Bare start) : LoadedConfig.search t start = .ok (none, {}) := by
  have hfind : ((start :: start.ancestors).find? fun d => t.has (d.child fileName)) = none :=
    List.find?_eq_none.mpr fun dir hdir => Bool.eq_false_iff.mp (h dir hdir)
  unfold LoadedConfig.search
  rw [hfind]

end FileTree

namespace LoadedConfig

variable {t : FileTree} {start : TreePath}

/-- The configuration in the file that counts, and the directory in which it was found; without a file the empty one. -/
inductive Governs (t : FileTree) (start : TreePath) : Option TreePath → ProjectConfig → Prop where
  | file {dir c} (nearest : t.Nearest start dir) (provides : t.Provides dir c) : Governs t start (some dir.trim) c
  | nothing (bare : t.Bare start) : Governs t start none {}

theorem search_eq_ok {root : Option TreePath} {c : ProjectConfig} :
    search t start = .ok (root, c) ↔ Governs t start root c := by
  constructor
  · intro h
    rcases t.nearest_or_bare start with ⟨dir, hnearest⟩ | hbare
    · rw [FileTree.search_of_nearest hnearest] at h
      cases hread : readFile t (dir.child fileName) with
      | error e => rw [hread] at h; cases h
      | ok d =>
        rw [hread] at h
        cases h
        exact .file hnearest (FileTree.readFile_eq_ok.mp hread)
    · rw [FileTree.search_of_bare hbare] at h
      cases h
      exact .nothing hbare
  · intro h
    cases h with
    | file nearest provides =>
      rw [FileTree.search_of_nearest nearest, FileTree.readFile_eq_ok.mpr provides]
      rfl
    | nothing bare => exact FileTree.search_of_bare bare

theorem search_eq_error :
    (∃ e, search t start = .error e) ↔ ∃ dir, t.Nearest start dir ∧ ∀ c, ¬ t.Provides dir c := by
  constructor
  · rintro ⟨e, h⟩
    rcases t.nearest_or_bare start with ⟨dir, hnearest⟩ | hbare
    · refine ⟨dir, hnearest, fun c hprovides => ?_⟩
      rw [FileTree.search_of_nearest hnearest, FileTree.readFile_eq_ok.mpr hprovides] at h
      cases h
    · rw [FileTree.search_of_bare hbare] at h
      cases h
  · rintro ⟨dir, hnearest, hnone⟩
    rw [FileTree.search_of_nearest hnearest]
    cases hread : readFile t (dir.child fileName) with
    | error e => exact ⟨e, rfl⟩
    | ok c => exact (hnone c (FileTree.readFile_eq_ok.mp hread)).elim

/-- What is read never breaks a range. -/
theorem Governs.inRange {root : Option TreePath} {c : ProjectConfig} (h : Governs t start root c) : c.InRange := by
  cases h with
  | file _ provides =>
    obtain ⟨_, _, _, hrange⟩ := provides
    exact hrange
  | nothing _ => exact fun f n hn => nomatch hn

end LoadedConfig

/-! ## The environment over the file -/

/-- The effective value of a setting: that of the environment if the variable is set, else that of the file if it has
the entry, else the default. -/
def CountField.Effective (f : CountField) (env : Option Environment) (c : ProjectConfig) (n : Nat) : Prop :=
  match env.bind (·.get? f.envName) with
  | some text => Environment.Says text n
  | none => n = (f.entryOf c).getD (f.setting {})

namespace LoadedConfig

variable {env : Option Environment} {c c' : ProjectConfig}

theorem override_of_ok (h : override env c = .ok c') :
    (env = none ∧ c' = c) ∨ ∃ e o, env = some e ∧ e.config = .ok o ∧ c' = c.merge o := by
  cases env with
  | none =>
    cases h
    exact .inl ⟨rfl, rfl⟩
  | some e =>
    cases hconfig : e.config with
    | error _ => rw [override, hconfig] at h; cases h
    | ok o =>
      rw [override, hconfig] at h
      cases h
      exact .inr ⟨e, o, rfl, hconfig, rfl⟩

theorem override_eq_error :
    (∃ e, override env c = .error e) ↔ ∃ e, env = some e ∧ ∃ f : CountField, e.Spoils f.envName f.range := by
  cases env with
  | none => simp [override]
  | some e =>
    have hmap : (∃ x, override (some e) c = .error x) ↔ ∃ x, e.config = .error x := by
      rw [override]
      cases e.config <;> simp [Except.map]
    rw [hmap, Environment.config_eq_error]
    simp

/-- One setting at a time: it depends on its own variable and its own entry only. -/
theorem effective_of_override (h : override env c = .ok c') (hc : c.InRange) (f : CountField) :
    f.Effective env c (f.setting c'.settings) ∧ f.range.Has (f.setting c'.settings) := by
  rw [f.setting_settings c']
  have hfile : f.range.Has ((f.entryOf c).getD (f.setting {})) := by
    cases hentry : f.entryOf c with
    | none => exact f.range_default
    | some n => exact hc f n hentry
  rcases override_of_ok h with ⟨rfl, rfl⟩ | ⟨e, o, rfl, hconfig, rfl⟩
  · exact ⟨rfl, hfile⟩
  · have hgives := (Environment.config_of_ok hconfig).1 f
    rw [f.entryOf_merge]
    cases hentry : f.entryOf o with
    | none =>
      rw [hentry] at hgives
      have hunset : (some e).bind (·.get? f.envName) = none := hgives
      simp only [CountField.Effective, hunset]
      exact ⟨rfl, hfile⟩
    | some n =>
      rw [hentry] at hgives
      obtain ⟨text, htext, hnumber, hrange⟩ := hgives
      have hset : (some e).bind (·.get? f.envName) = some text := htext
      simp only [CountField.Effective, hset]
      exact ⟨hnumber, hrange⟩

theorem optimize_of_override (h : override env c = .ok c') :
    c'.settings.optimize =
      ((env.bind (·.get? "KESTREL_OPTIMIZE")).map Environment.isYes <|> c.optimizes).getD true := by
  rw [c'.optimize_settings]
  rcases override_of_ok h with ⟨rfl, rfl⟩ | ⟨e, o, rfl, hconfig, rfl⟩
  · rfl
  · rw [c.optimizes_merge, (Environment.config_of_ok hconfig).2]
    rfl

end LoadedConfig

/-! ## The directories that are searched -/

namespace TreePath

/-- The directory that a path leads to from the root of a tree; `..` goes back. -/
def place (p : TreePath) : List String :=
  p.segments.foldl
    (fun here s => if isHere s then here else if s == ".." then here.dropLast else here ++ [s]) []

/-- The names of a path are those of its segments that lead somewhere. -/
def names (segments : List String) : List String := segments.filter fun s => !isHere s

theorem names_append (a b : List String) : names (a ++ b) = names a ++ names b := List.filter_append ..

theorem names_singleton (s : String) : names [s] = if isHere s then [] else [s] := by
  cases h : isHere s <;> simp [names, h]

theorem place_of_noParent {p : TreePath} (h : ".." ∉ p.segments) : p.place = names p.segments := by
  unfold place
  suffices ∀ here : List String, p.segments.foldl
      (fun here s => if isHere s then here else if s == ".." then here.dropLast else here ++ [s]) here =
        here ++ names p.segments from this []
  generalize p.segments = segments at h
  induction segments with
  | nil => exact fun here => (List.append_nil here).symm
  | cons s rest ih =>
    intro here
    have hs : (s == "..") = false := by
      rw [beq_eq_false_iff_ne]
      exact fun heq => h (heq ▸ List.mem_cons_self)
    have hrest := ih fun hmem => h (List.mem_cons_of_mem _ hmem)
    rw [List.foldl_cons, hrest, hs]
    cases hhere : isHere s <;> simp [names, hhere]

/-- The first of the parts has all the names. -/
theorem climb_cons (segments : List String) :
    ∃ first above, climb segments = first :: above ∧ names first = names segments.reverse := by
  induction segments with
  | nil => exact ⟨[], [], rfl, rfl⟩
  | cons s above ih =>
    rw [climb, List.reverse_cons, names_append, names_singleton]
    cases hs : isHere s with
    | true => simpa using ih
    | false =>
      refine ⟨(s :: above).reverse, climb above, by simp, ?_⟩
      rw [List.reverse_cons, names_append, names_singleton, hs]

theorem names_climb (segments : List String) :
    (climb segments).map names = (names segments.reverse).inits.reverse := by
  induction segments with
  | nil => rfl
  | cons s above ih =>
    rw [climb, List.reverse_cons, names_append, names_singleton]
    cases hs : isHere s with
    | true => simpa using ih
    | false => simp [ih, names_append, names_singleton, hs, List.inits_append]

/-- The directories that are searched are those on the way from the path up, one by one. -/
theorem names_searched (p : TreePath) :
    (p :: p.ancestors).map (fun dir => names dir.segments) = (names p.segments).inits.reverse := by
  obtain ⟨first, above, hclimb, hfirst⟩ := climb_cons p.segments.reverse
  have hall := names_climb p.segments.reverse
  rw [List.reverse_reverse] at hfirst hall
  rw [← hall, hclimb, List.map_cons, List.map_cons, hfirst, ancestors, hclimb, List.tail_cons, List.map_map]
  rfl

theorem prefix_of_mem_climb {segments part : List String} (h : part ∈ climb segments) : part <+: segments.reverse := by
  induction segments with
  | nil =>
    obtain rfl := List.mem_singleton.mp h
    exact List.prefix_rfl
  | cons s above ih =>
    have hlonger : above.reverse <+: (s :: above).reverse := by
      rw [List.reverse_cons]
      exact List.prefix_append _ _
    rw [climb] at h
    split at h
    · exact (ih h).trans hlonger
    · rcases List.mem_cons.mp h with rfl | h
      · exact List.prefix_rfl
      · exact (ih h).trans hlonger

theorem segments_searched {p dir : TreePath} (h : dir ∈ p :: p.ancestors) :
    dir.segments <+: p.segments ∧ dir.absolute = p.absolute := by
  rcases List.mem_cons.mp h with rfl | h
  · exact ⟨List.prefix_rfl, rfl⟩
  · obtain ⟨part, hpart, rfl⟩ := List.mem_map.mp h
    have hbegins := prefix_of_mem_climb (List.mem_of_mem_tail hpart)
    rw [List.reverse_reverse] at hbegins
    exact ⟨hbegins, rfl⟩

end TreePath

namespace FileTree

open LoadedConfig (fileName)

variable {t : FileTree} {e : Entry}

theorem follow_nil {here : List String} : t.follow (some here) [] = .entry e ↔ t.entry? here = some e := by
  unfold follow
  dsimp only
  cases t.entry? here <;> simp

/-- One step down: it starts at a directory. -/
theorem follow_cons {here : List String} {s : String} {rest : List String} (hparent : s ≠ "..") :
    t.follow (some here) (s :: rest) = .entry e ↔ t.entry? here = some .directory ∧
      (isHere s = true ∨ s.utf8ByteSize ≤ TreePath.maxName) ∧
      t.follow (some (here ++ TreePath.names [s])) rest = .entry e := by
  have hs : (s == "..") = false := beq_eq_false_iff_ne.mpr hparent
  conv => lhs; unfold follow
  dsimp only
  rw [TreePath.names_singleton]
  cases hentry : t.entry? here with
  | none => simp
  | some found =>
    cases found with
    | file text => simp
    | directory =>
      cases hhere : isHere s with
      | true => simp [hhere]
      | false =>
        by_cases hlong : s.utf8ByteSize > TreePath.maxName
        · simp [hs, hhere, hlong, Nat.not_le.mpr hlong]
        · simp [hs, hhere, hlong, Nat.le_of_not_lt hlong]

/-- A name in a directory. -/
theorem follow_child (name : String) (hname : isHere name = false) (hparent : name ≠ "..")
    (hshort : name.utf8ByteSize ≤ TreePath.maxName) {segments : List String} (h : ".." ∉ segments)
    (here : List String) :
    t.follow (some here) (segments ++ [name]) = .entry e ↔ t.follow (some here) segments = .entry .directory ∧
      t.entry? (here ++ TreePath.names segments ++ [name]) = some e := by
  induction segments generalizing here with
  | nil =>
    rw [List.nil_append, follow_cons hparent, follow_nil, follow_nil, TreePath.names_singleton, hname]
    simp [hshort, TreePath.names]
  | cons s rest ih =>
    have hs : s ≠ ".." := fun heq => h (heq ▸ List.mem_cons_self)
    have hrest := ih (fun hmem => h (List.mem_cons_of_mem _ hmem)) (here ++ TreePath.names [s])
    have hnames : TreePath.names (s :: rest) = TreePath.names [s] ++ TreePath.names rest :=
      TreePath.names_append [s] rest
    rw [List.cons_append, follow_cons hs, follow_cons hs, hrest, hnames, ← List.append_assoc here]
    simp only [and_assoc]

/-- What is found in a directory inside the tree is what stands in the tree at the place of the directory. -/
theorem find_file_eq_entry {dir : TreePath} (hrelative : dir.absolute = false) (h : ".." ∉ dir.segments) :
    t.find (dir.child fileName) = .entry e ↔ (dir.child fileName).isSound = true ∧
      t.follow (some []) dir.segments = .entry .directory ∧ t.entry? (dir.place ++ [fileName]) = some e := by
  have hchild := follow_child (t := t) (e := e) fileName (by decide) (by decide) (by decide) h []
  rw [List.nil_append, ← TreePath.place_of_noParent h] at hchild
  have hpath : (dir.child fileName).absolute = false := hrelative
  have hsegments : (dir.child fileName).segments = dir.segments ++ [fileName] := rfl
  rw [find, ← hchild, hpath, hsegments]
  by_cases hsound : (dir.child fileName).isSound = true
  · simp [hsound]
  · simp [hsound]

end FileTree

/-! ## Loading -/

namespace LoadedConfig

/-- What loading a configuration does. -/
structure Precedence (t : FileTree) (env : Option Environment) (start : TreePath) : Prop where
  /-- It fails exactly if the file that counts is unusable or a variable of the environment is. -/
  fails_iff : (∃ e, ofDirectory t env start = .error e) ↔
    (∃ dir, t.Nearest start dir ∧ ∀ c, ¬ t.Provides dir c) ∨
      ∃ vars, env = some vars ∧ ∃ f : CountField, vars.Spoils f.envName f.range
  /-- Every setting is that of the environment, else that of the file, else the default, and is in its range. -/
  effective : ∀ loaded, ofDirectory t env start = .ok loaded → ∃ c, Governs t start loaded.root c ∧
    (∀ f : CountField, f.Effective env c (f.setting loaded.settings) ∧ f.range.Has (f.setting loaded.settings)) ∧
    loaded.settings.optimize =
      ((env.bind (·.get? "KESTREL_OPTIMIZE")).map Environment.isYes <|> c.optimizes).getD true
  /-- No other file matters. -/
  alone : ∀ t' dir, t.Nearest start dir → t'.Nearest start dir →
    t'.find (dir.child fileName) = t.find (dir.child fileName) → ofDirectory t' env start = ofDirectory t env start
  /-- Without `..` in the path, the directories that are searched are the start and those above it, the nearest first,
  and what is found there is what stands there. -/
  upward : start.absolute = false → ".." ∉ start.segments →
    (start :: start.ancestors).map TreePath.place = start.place.inits.reverse ∧
      ∀ dir ∈ start :: start.ancestors, ∀ e, t.find (dir.child fileName) = .entry e ↔
        (dir.child fileName).isSound = true ∧ t.follow (some []) dir.segments = .entry .directory ∧
          t.entry? (dir.place ++ [fileName]) = some e

theorem ofDirectory_eq_ok {t : FileTree} {env : Option Environment} {start : TreePath} {loaded : LoadedConfig} :
    ofDirectory t env start = .ok loaded ↔
      ∃ c, search t start = .ok (loaded.root, c) ∧ override env c = .ok loaded.project := by
  unfold ofDirectory
  simp only [Except.bind_eq_ok]
  constructor
  · rintro ⟨⟨root, c⟩, hsearch, project, hoverride, h⟩
    cases h
    exact ⟨c, hsearch, hoverride⟩
  · rintro ⟨c, hsearch, hoverride⟩
    exact ⟨(loaded.root, c), hsearch, loaded.project, hoverride, rfl⟩

theorem ofDirectory_eq_error {t : FileTree} {env : Option Environment} {start : TreePath} :
    (∃ e, ofDirectory t env start = .error e) ↔ (∃ e, search t start = .error e) ∨
      ∃ vars, env = some vars ∧ ∃ f : CountField, vars.Spoils f.envName f.range := by
  unfold ofDirectory
  cases hsearch : search t start with
  | error e => exact ⟨fun _ => .inl ⟨e, rfl⟩, fun _ => ⟨e, rfl⟩⟩
  | ok found =>
    obtain ⟨root, c⟩ := found
    have hoverride : (∃ e, ((override env c).bind fun p => .ok (LoadedConfig.mk p root)) = .error e) ↔
        ∃ e, override env c = .error e := by
      cases override env c <;> simp [Except.bind]
    refine hoverride.trans (override_eq_error.trans ⟨.inr, ?_⟩)
    rintro (⟨e, he⟩ | hvars)
    · cases he
    · exact hvars

theorem precedence (t : FileTree) (env : Option Environment) (start : TreePath) : Precedence t env start where
  fails_iff := by rw [ofDirectory_eq_error, search_eq_error]
  effective := by
    intro loaded h
    obtain ⟨c, hsearch, hoverride⟩ := ofDirectory_eq_ok.mp h
    have hgoverns := search_eq_ok.mp hsearch
    exact ⟨c, hgoverns, effective_of_override hoverride hgoverns.inRange, optimize_of_override hoverride⟩
  alone := by
    intro t' dir h h' hfind
    have hsearch : search t' start = search t start := by
      rw [FileTree.search_of_nearest h, FileTree.search_of_nearest h', readFile, hfind]
      rfl
    unfold ofDirectory
    rw [hsearch]
  upward := by
    intro hrelative hparent
    have hsearched {dir : TreePath} (hdir : dir ∈ start :: start.ancestors) :
        dir.absolute = false ∧ ".." ∉ dir.segments := by
      obtain ⟨hbegins, habsolute⟩ := TreePath.segments_searched hdir
      exact ⟨habsolute.trans hrelative, fun hmem => hparent (hbegins.subset hmem)⟩
    constructor
    · rw [TreePath.place_of_noParent hparent, ← TreePath.names_searched]
      exact List.map_congr_left fun dir hdir => TreePath.place_of_noParent (hsearched hdir).2
    · exact fun dir hdir e => FileTree.find_file_eq_entry (hsearched hdir).1 (hsearched hdir).2

/-- A file in `a` and none outside. -/
def inside : FileTree :=
  FileTree.empty.insert ⟨false, ["a", fileName]⟩ (.file "[vm]\nstack_size = 64\n")

theorem inside_provides : inside.Provides ⟨false, ["a"]⟩ { vm := some { stackSize := some 64 } } := by
  have hsound : TreePath.isSound ⟨false, ["a", fileName]⟩ = true := by cbv
  refine ⟨"[vm]\nstack_size = 64\n", ?_, by decide +kernel, ?_⟩
  · change inside.find ⟨false, ["a", fileName]⟩ = _
    rw [FileTree.find, hsound]
    decide +kernel
  · rintro (_ | _ | _) n hn <;> cases hn
    exact ⟨by decide, by decide⟩

theorem inside_governs {name : String} (hdirs : TreePath.ancestors ⟨false, ["a", name]⟩ = [⟨false, ["a"]⟩, ⟨false, []⟩])
    (hmissing : inside.follow (some []) ["a", name, fileName] = .missing) :
    Governs inside ⟨false, ["a", name]⟩ (some ⟨false, ["a"]⟩) { vm := some { stackSize := some 64 } } := by
  have hhas : inside.has ⟨false, ["a", fileName]⟩ = true := by
    obtain ⟨text, hfind, -⟩ := inside_provides
    rw [FileTree.has, show inside.find ⟨false, ["a", fileName]⟩ = _ from hfind]
  have hnot : inside.has ⟨false, ["a", name, fileName]⟩ = false := by
    rw [FileTree.has, FileTree.find]
    split
    · next hfind => split at hfind <;> simp_all
    · rfl
  have hnearest : inside.Nearest ⟨false, ["a", name]⟩ ⟨false, ["a"]⟩ := by
    refine ⟨[⟨false, ["a", name]⟩], [⟨false, []⟩], by rw [hdirs]; rfl, hhas, fun d hd => ?_⟩
    obtain rfl := List.mem_singleton.mp hd
    exact hnot
  have hgoverns := Governs.file hnearest inside_provides
  rwa [show TreePath.trim ⟨false, ["a"]⟩ = ⟨false, ["a"]⟩ by decide] at hgoverns

theorem inside_precedence : ∃ loaded,
    ofDirectory inside (some [("KESTREL_MAX_FRAMES", " +32 ")]) ⟨false, ["a", "b"]⟩ = .ok loaded ∧
    loaded.settings = ⟨64, 32, 65536, true⟩ ∧ Environment.Says " +32 " loaded.settings.maxFrames ∧
    AllowedRange.Has ⟨16, 2 ^ 20⟩ loaded.settings.stackSize ∧
    [⟨false, ["a", "b"]⟩, ⟨false, ["a"]⟩, ⟨false, []⟩].map TreePath.place = [["a", "b"], ["a"], []] := by
  have hprecedence := precedence inside (some [("KESTREL_MAX_FRAMES", " +32 ")]) ⟨false, ["a", "b"]⟩
  have hloaded : ofDirectory inside (some [("KESTREL_MAX_FRAMES", " +32 ")]) ⟨false, ["a", "b"]⟩ =
      .ok ⟨{ vm := some { stackSize := some 64, maxFrames := some 32 } }, some ⟨false, ["a"]⟩⟩ :=
    ofDirectory_eq_ok.mpr ⟨_, search_eq_ok.mpr (inside_governs (by decide) (by decide +kernel)), by decide +kernel⟩
  obtain ⟨c, -, hcounts, -⟩ := hprecedence.effective _ hloaded
  exact ⟨_, hloaded, rfl, (hcounts .maxFrames).1, (hcounts .stackSize).2, (hprecedence.upward rfl (by decide)).1⟩

/-- From `a/..`, which leads to the root, the search goes on in `a`, which is not above it. -/
theorem parent_of_parent_searched :
    TreePath.place ⟨false, ["a", ".."]⟩ = [] ∧ inside.entry? [fileName] = none ∧
    inside.follow (some []) ["a", ".."] = .entry .directory ∧
    ofDirectory inside none ⟨false, ["a", ".."]⟩ =
      .ok ⟨{ vm := some { stackSize := some 64 } }, some ⟨false, ["a"]⟩⟩ := by
  refine ⟨by decide, by decide, by decide +kernel, ?_⟩
  exact ofDirectory_eq_ok.mpr ⟨_, search_eq_ok.mpr (inside_governs (by decide) (by decide +kernel)), rfl⟩

end LoadedConfig

end ScriptMachine
