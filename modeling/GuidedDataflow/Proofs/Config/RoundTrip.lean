import GuidedDataflow.Config.File
import GuidedDataflow.Proofs.Document.Yaml.Decoding

/-!
Configurations in files. The text of a configuration reads back as the configuration, which is
then validated as any other.
-/

namespace GuidedDataflow

open Document Yaml

/-- The names of the fields in a configuration file, those of nested records included. -/
def ConfigFile.names : List String :=
  ["version", "preset", "analysis", "kind", "built_in_rules", "declaring_class", "method_name"] ++
    Config.fieldNames

theorem ConfigFile.fieldName_of_mem : ∀ name ∈ names, FieldName name.toList := by
  have hstyle : ∀ name ∈ names, styleOf name.toList = .plain := by decide
  have hletters : (names.flatMap String.toList).all (fun c => c.isAlpha || c = '_') = true := by
    decide
  have hletter : ∀ name ∈ names, ∀ c ∈ name.toList, c.isAlpha = true ∨ c = '_' :=
    fun name h c hc => by
      simpa using List.all_eq_true.1 hletters c (List.mem_flatMap_of_mem h hc)
  have hshort : ∀ name ∈ names, name.toList.length ≤ 1024 := by decide
  exact fun name h => ⟨hstyle name h, hletter name h, hshort name h⟩

theorem ConfigFile.forall_fieldName {entries : List (String × Tree)}
    (h : ∀ name ∈ entries.map Prod.fst, name ∈ names) : ∀ e ∈ entries, FieldName e.1.toList :=
  fun _ he => fieldName_of_mem _ (h _ (List.mem_map_of_mem he))

namespace ConstructorRule

variable (r : ConstructorRule)

theorem ofTree?_tree : ofTree? r.tree = some r := rfl

theorem forall_fieldName : ∀ e ∈ [("declaring_class", Tree.text r.declaringClass),
    ("method_name", .text r.methodName)], FieldName e.1.toList :=
  ConfigFile.forall_fieldName
    (show ∀ name ∈ ["declaring_class", "method_name"], name ∈ ConfigFile.names by decide)

theorem nested_tree : Nested r.tree :=
  .record nofun r.forall_fieldName
    (List.forall_mem_cons.2 ⟨.text _, List.forall_mem_cons.2 ⟨.text _, nofun⟩⟩)

theorem tree?_ofTree : Node.tree? (Node.ofTree r.tree) = some r.tree :=
  Node.tree?_record r.forall_fieldName
    (List.forall_mem_cons.2 ⟨Node.tree?_text _, List.forall_mem_cons.2 ⟨Node.tree?_text _, nofun⟩⟩)

theorem depth_ofTree : (Node.ofTree r.tree).depth ≤ 1 := Nat.le_refl 1

end ConstructorRule

namespace Propagation

theorem nested_tree (p : Propagation) : Nested p.tree := by
  cases p with
  | localOnly =>
    exact .record nofun
      (ConfigFile.forall_fieldName (show ∀ name ∈ ["kind"], name ∈ ConfigFile.names by decide))
      (List.forall_mem_cons.2 ⟨.text _, nofun⟩)
  | globalRescan rules =>
    have hrules : Nested (.list (rules.map ConstructorRule.tree)) := by
      refine .list ?_ ?_
      · exact List.forall_mem_map.2 fun r _ => ⟨_, _, rfl⟩
      · exact List.forall_mem_map.2 fun r _ => r.nested_tree
    exact .record nofun
      (ConfigFile.forall_fieldName
        (show ∀ name ∈ ["kind", "built_in_rules"], name ∈ ConfigFile.names by decide))
      (List.forall_mem_cons.2 ⟨.text _, List.forall_mem_cons.2 ⟨hrules, nofun⟩⟩)

theorem depth_ofTree (p : Propagation) : (Node.ofTree p.tree).depth ≤ 3 := by
  cases p with
  | localOnly => decide
  | globalRescan rules =>
    have hrules : (Node.ofTree (.list (rules.map ConstructorRule.tree))).depth ≤ 2 :=
      Node.depth_ofTree_list (List.forall_mem_map.2 fun r _ => r.depth_ofTree)
    exact Node.depth_ofTree_record
      (List.forall_mem_cons.2 ⟨Nat.zero_le 2, List.forall_mem_cons.2 ⟨hrules, nofun⟩⟩)

theorem ofTagged?_rules (rules : List ConstructorRule) :
    ofTagged? "global_rescan"
      (.record [("built_in_rules", .list (rules.map ConstructorRule.tree))]) =
        some (.globalRescan rules) := by
  have hrules : rulesOfTree? (.list (rules.map ConstructorRule.tree)) = some rules := by
    change (rules.map ConstructorRule.tree).mapM ConstructorRule.ofTree? = some rules
    have hread : rules.mapM (fun r => ConstructorRule.ofTree? r.tree) = some (rules.map id) :=
      mapM_eq_some_map fun r _ => r.ofTree?_tree
    rw [List.mapM_map]
    rwa [List.map_id] at hread
  have hrecord : record? [⟨"built_in_rules", true⟩] false
      (Tree.record [("built_in_rules", .list (rules.map ConstructorRule.tree))]) =
        some [("built_in_rules", .list (rules.map ConstructorRule.tree))] := rfl
  simp [ofTagged?, hrecord, Record.withDefault?, Record.get?, hrules]

theorem read?_ofTree (p : Propagation) : read? (Node.ofTree p.tree) = some p := by
  cases p with
  | localOnly => decide
  | globalRescan rules =>
    have hrules : Node.tree? (Node.ofTree (.list (rules.map ConstructorRule.tree))) =
        some (.list (rules.map ConstructorRule.tree)) :=
      Node.tree?_list (List.forall_mem_map.2 fun r _ => r.tree?_ofTree)
    have htagged : Document.tagged? "kind" (Node.ofTree (globalRescan rules).tree) =
        some ("global_rescan",
          Tree.record [("built_in_rules", .list (rules.map ConstructorRule.tree))]) :=
      Node.tagged?_ofTree (ConfigFile.fieldName_of_mem "kind" (by decide))
        (ConfigFile.forall_fieldName
          (show ∀ name ∈ ["built_in_rules"], name ∈ ConfigFile.names by decide))
        (List.forall_mem_cons.2 ⟨show "built_in_rules" ≠ "kind" by decide, nofun⟩)
        (List.forall_mem_cons.2 ⟨hrules, nofun⟩)
    rw [read?, htagged]
    exact ofTagged?_rules rules

end Propagation

theorem VisitedPolicy.read?_ofTree (p : VisitedPolicy) :
    read? (Node.ofTree (.text p.text)) = some p := by
  cases p <;> decide

/-- Every limit is a number of at most 64 bits. -/
structure Config.Fits (c : Config) : Prop where
  solverTimeoutMs : c.solverTimeoutMs ≤ maxUnsigned
  maxCallDepth : c.maxCallDepth ≤ maxUnsigned
  maxPropagations : c.maxPropagations ≤ maxUnsigned
  maxQueries : c.maxQueries ≤ maxUnsigned

namespace ConfigPatch

variable (c : Config)

/-- The entries of a full patch. -/
def entries : List (String × Tree) :=
  [("propagation", c.propagation.tree), ("visited_policy", .text c.visitedPolicy.text),
    ("solver_timeout_ms", .nat c.solverTimeoutMs), ("max_call_depth", .nat c.maxCallDepth),
    ("max_propagations", .nat c.maxPropagations), ("max_queries", .nat c.maxQueries)]

theorem tree_ofConfig : (ofConfig c).tree = .record (entries c) := rfl

theorem nested_tree : Nested (ofConfig c).tree := by
  rw [tree_ofConfig]
  refine .record nofun (ConfigFile.forall_fieldName fun _ h => List.mem_append_right _ h) ?_
  simp [entries, c.propagation.nested_tree, Nested.text, Nested.nat]

theorem depth_ofTree : (Node.ofTree (ofConfig c).tree).depth ≤ 4 := by
  rw [tree_ofConfig]
  refine Node.depth_ofTree_record ?_
  simp [entries, c.propagation.depth_ofTree, Node.ofTree, Node.depth, Tree.nat]

variable {c}

theorem read?_ofTree (h : c.Fits) : read? (Node.ofTree (ofConfig c).tree) = some (ofConfig c) := by
  let found : Record Node := Node.ofFields (entries c)
  have hrecord : record? (Config.fieldNames.map (⟨·, false⟩)) true (Node.ofTree (ofConfig c).tree) =
      some found :=
    Node.record?_ofTree
      (show ∀ name ∈ Config.fieldNames,
        (Config.fieldNames.map (Field.mk · false)).any (·.name = name) = true by decide)
      (show Config.fieldNames.Nodup by decide)
  have hpropagation : found.nullable? "propagation" isNull Propagation.read? =
      some (some c.propagation) := by
    refine Record.nullable?_found rfl ?_ c.propagation.read?_ofTree
    cases c.propagation <;> rfl
  have hvisited : found.nullable? "visited_policy" isNull VisitedPolicy.read? =
      some (some c.visitedPolicy) := by
    refine Record.nullable?_found rfl ?_ c.visitedPolicy.read?_ofTree
    cases c.visitedPolicy <;> decide
  have htimeout : found.nullable? "solver_timeout_ms" isNull nat? = some (some c.solverTimeoutMs) :=
    Node.nullable?_nat rfl h.solverTimeoutMs
  have hdepth : found.nullable? "max_call_depth" isNull nat? = some (some c.maxCallDepth) :=
    Node.nullable?_nat rfl h.maxCallDepth
  have hpropagations : found.nullable? "max_propagations" isNull nat? =
      some (some c.maxPropagations) := Node.nullable?_nat rfl h.maxPropagations
  have hqueries : found.nullable? "max_queries" isNull nat? = some (some c.maxQueries) :=
    Node.nullable?_nat rfl h.maxQueries
  rw [read?, hrecord]
  simp only [Option.bind_eq_bind, Option.bind_some, hpropagation, hvisited, htimeout, hdepth,
    hpropagations, hqueries]
  rfl

end ConfigPatch

namespace ConfigFile

variable (c : Config)

/-- The entries of the file that a configuration is written to. -/
def entries : List (String × Tree) :=
  [("version", .nat 1), ("preset", .text (default : Preset).text),
    ("analysis", (ConfigPatch.ofConfig c).tree)]

theorem tree_ofConfig : (ofConfig c).tree = .record (entries c) := rfl

theorem nested_tree : Nested (ofConfig c).tree := by
  rw [tree_ofConfig]
  refine .record nofun (forall_fieldName ?_) ?_
  · exact show ∀ name ∈ ["version", "preset", "analysis"], name ∈ names by decide
  · simp [entries, ConfigPatch.nested_tree, Nested.text, Nested.nat]

theorem depth_ofTree : (Node.ofTree (ofConfig c).tree).depth ≤ 5 := by
  rw [tree_ofConfig]
  refine Node.depth_ofTree_record ?_
  simp [entries, ConfigPatch.depth_ofTree, Node.ofTree, Node.depth, Tree.nat]

theorem config_ofConfig :
    (ofConfig c).config =
      match c.validate with
      | .ok () => .ok c
      | .error e => .error e := by
  have hpreset : Preset.ofName? (default : Preset).text = some default := by decide
  simp only [config, ofConfig, supportedConfigVersions, List.mem_cons, List.not_mem_nil, or_false,
    hpreset, Option.getD_some, Config.patch_ofConfig, bind_pure_comp, pure_bind, ite_not, if_true]
  cases c.validate <;> rfl

variable {c}

theorem read?_ofTree (h : c.Fits) : read? (Node.ofTree (ofConfig c).tree) = some (ofConfig c) := by
  let found : Record Node := Node.ofFields (entries c)
  have hrecord : record? fields true (Node.ofTree (ofConfig c).tree) = some found :=
    Node.record?_ofTree
      (show ∀ name ∈ ["version", "preset", "analysis"], fields.any (·.name = name) = true by decide)
      (show ["version", "preset", "analysis"].Nodup by decide)
  have hversion : found.nullable? "version" isNull nat32? = some (some 1) :=
    Record.nullable?_found rfl (by decide) (by decide)
  have hpreset : found.required? "preset" text? = some (default : Preset).text := rfl
  have hanalysis : found.nullable? "analysis" isNull ConfigPatch.read? =
      some (some (.ofConfig c)) := Record.nullable?_found rfl rfl (ConfigPatch.read?_ofTree h)
  rw [read?, hrecord]
  simp only [Option.bind_eq_bind, Option.bind_some, hversion, hpreset, hanalysis]
  rfl

end ConfigFile

namespace Config

end Config

end GuidedDataflow
