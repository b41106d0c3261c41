import Mathlib.Data.Fintype.Card
import SimpleBlockchain.Basic
import SimpleBlockchain.PluginLifecycle

/-!
# The database handle

`sqlite_plugin` opens the database in its startup and closes it in its shutdown. In between,
the startup of `chain_plugin`, the calls of the chain API and the chain check of
`tool_plugin` send queries. `chain_plugin` requires `sqlite_plugin`; `tool_plugin` requires
nothing.
-/

namespace SimpleBlockchain

open Lifecycle

inductive Plugin
  | httpPlugin
  | chainPlugin
  | chainApiPlugin
  | sqlitePlugin
  | schedulePlugin
  | toolPlugin
deriving DecidableEq

namespace Plugin

instance : Fintype Plugin where
  elems := {httpPlugin, chainPlugin, chainApiPlugin, sqlitePlugin, schedulePlugin, toolPlugin}
  complete := fun p => by cases p <;> decide

def name : Plugin → Str
  | httpPlugin => "eosio::http_plugin".toList
  | chainPlugin => "eosio::chain_plugin".toList
  | chainApiPlugin => "eosio::chain_api_plugin".toList
  | sqlitePlugin => "eosio::sqlite_plugin".toList
  | schedulePlugin => "eosio::schedule_plugin".toList
  | toolPlugin => "eosio::tool_plugin".toList

/-- `APPBASE_PLUGIN_REQUIRES`. -/
def requires : Plugin → List Plugin
  | httpPlugin => []
  | chainPlugin => [sqlitePlugin]
  | chainApiPlugin => [chainPlugin, httpPlugin]
  | sqlitePlugin => []
  | schedulePlugin => []
  | toolPlugin => []

def rank : Plugin → ℕ
  | chainPlugin => 1
  | chainApiPlugin => 2
  | _ => 0

def dependencies : Dependencies Plugin where
  requires := requires
  rank := rank
  acyclic := by decide

end Plugin

/-! ## The tool -/

structure ToolOptions where
  keygen : Option Str
  h2c : Option Str
  c2h : Option Str
  sign : Option Str
  key : Option Str
  chkchain : Option Str

/-- The constructor sets no type. -/
structure ToolPlugin where
  type : ℤ
  optionDatas : List Str

namespace ToolPlugin

def pluginInitialize (tool : ToolPlugin) (options : ToolOptions) : ToolPlugin :=
  match options.keygen, options.h2c, options.c2h, options.sign, options.key, options.chkchain with
  | some _, _, _, _, _, _ => { tool with type := 1 }
  | none, some hex, _, _, _, _ => ⟨2, tool.optionDatas ++ [hex]⟩
  | none, none, some str, _, _, _ => ⟨3, tool.optionDatas ++ [str]⟩
  | none, none, none, some trx, some key, _ => ⟨4, tool.optionDatas ++ [trx, key]⟩
  | none, none, none, _, _, some _ => { tool with type := 5 }
  | none, none, none, _, _, none => tool

/-- The `default` of the switch in `plugin_startup`. -/
def startupFails (tool : ToolPlugin) : Bool := !(1 ≤ tool.type && tool.type ≤ 5)

def ChecksChain (tool : ToolPlugin) (options : ToolOptions) : Prop :=
  options.keygen = none ∧ options.h2c = none ∧ options.c2h = none ∧
    (options.sign = none ∨ options.key = none) ∧ (options.chkchain = none → tool.type = 5)

theorem pluginInitialize_type {tool : ToolPlugin} {options : ToolOptions} :
    (tool.pluginInitialize options).type = 5 ↔ tool.ChecksChain options := by
  obtain ⟨keygen, h2c, c2h, sign, key, chkchain⟩ := options
  unfold ChecksChain
  cases keygen <;> cases h2c <;> cases c2h <;> cases sign <;> cases key <;> cases chkchain <;>
    simp [pluginInitialize]

/-- The moments at which code is run that sends a query to the database. -/
def queriesDatabase (tool : ToolPlugin) : Event Plugin → Bool
  | .startup .chainPlugin => true
  | .startup .toolPlugin => tool.type = 5
  | .handle .chainApiPlugin => true
  | _ => false

end ToolPlugin

/-! ## The programs -/

inductive Program
  | nodeos
  | keosd

namespace Program

/-- The plugins that are linked to the program. -/
def registered : Program → List Plugin
  | nodeos => [.httpPlugin, .chainPlugin, .chainApiPlugin, .sqlitePlugin, .schedulePlugin]
  | keosd => [.toolPlugin, .sqlitePlugin]

def autostart : Program → List Plugin
  | nodeos => [.httpPlugin, .chainPlugin, .chainApiPlugin, .sqlitePlugin, .schedulePlugin]
  | keosd => [.toolPlugin]

def getPlugin (program : Program) (name : Str) : Option Plugin :=
  program.registered.find? (·.name = name)

def pluginNames (args : List Str) : List Str :=
  args.flatMap fun arg => arg.splitOnP (· ∈ [' ', '\t', ','])

def getPlugins (program : Program) : List Str → Option (List Plugin)
  | [] => some []
  | name :: names =>
      match program.getPlugin name, getPlugins program names with
      | some p, some ps => some (p :: ps)
      | _, _ => none

/-- The plugins that `initialize_impl` initialises, if it finds all. -/
def order (program : Program) (args : List Str) : Option (List Plugin) :=
  (program.getPlugins (pluginNames args)).map (· ++ program.autostart)

/-- What happens after the initialisation. The tool is as its initialisation leaves it. -/
def run (program : Program) (args : List Str) (tool : ToolPlugin) (c : Circumstances Plugin) :
    List (Event Plugin) :=
  match program.order args with
  | none => []
  | some order =>
      Lifecycle.run Plugin.dependencies
        { c with startThrows := fun p => c.startThrows p || p = .toolPlugin && tool.startupFails }
        order

end Program

def HandleSafe (tool : ToolPlugin) (events : List (Event Plugin)) : Prop :=
  ∀ before event after, events = before ++ event :: after → tool.queriesDatabase event = true →
    .startup .sqlitePlugin ∈ before ∧ .shutdown .sqlitePlugin ∉ before

/-! ## The plugins of a program -/

theorem Program.mem_registered {program : Program} {names : List Str} {ps : List Plugin}
    (h : program.getPlugins names = some ps) : ∀ p ∈ ps, p ∈ program.registered := by
  induction names generalizing ps with
  | nil =>
      cases h
      exact nofun
  | cons name names ih =>
      rw [getPlugins] at h
      cases hp : program.getPlugin name with
      | none =>
          rw [hp] at h
          cases h
      | some q =>
          cases hps : program.getPlugins names with
          | none =>
              rw [hp, hps] at h
              cases h
          | some qs =>
              rw [hp, hps] at h
              cases h
              intro p hpmem
              rcases List.mem_cons.1 hpmem with rfl | hpmem
              · exact List.mem_of_find?_eq_some hp
              · exact ih hps p hpmem

theorem Program.autostart_registered (program : Program) :
    ∀ p ∈ program.autostart, p ∈ program.registered := by
  cases program <;> decide

theorem Program.order_registered {program : Program} {args : List Str} {order : List Plugin}
    (h : program.order args = some order) : ∀ p ∈ order, p ∈ program.registered := by
  obtain ⟨ps, hps, rfl⟩ := Option.map_eq_some_iff.1 h
  intro p hp
  rcases List.mem_append.1 hp with hp | hp
  · exact mem_registered hps p hp
  · exact program.autostart_registered p hp

theorem Plugin.needs_tool {p : Plugin} (h : Needs dependencies p .toolPlugin) :
    p = .toolPlugin := by
  rcases Relation.ReflTransGen.cases_tail h with heq | ⟨q, _, hq⟩
  · exact heq.symm
  · have hnone : ∀ q, .toolPlugin ∉ requires q := by decide
    exact absurd hq (hnone q)

theorem Program.needs_sqlite {program : Program} (htool : .toolPlugin ∈ program.registered)
    {p : Plugin} (hp : p ∈ program.registered)
    (h : Needs Plugin.dependencies p .sqlitePlugin) : p = .sqlitePlugin := by
  rcases Needs.cases.1 h with heq | ⟨q, hq, _⟩
  · exact heq.symm
  · cases program with
    | nodeos => exact absurd htool (by decide)
    | keosd =>
        have hnone : ∀ p ∈ keosd.registered, p.requires = [] := by decide
        change q ∈ p.requires at hq
        rw [hnone p hp] at hq
        cases hq

/-! ## The order of the uses -/

theorem handleSafe_of_order {tool : ToolPlugin} {tried handled : List Plugin}
    (hordered : DependencyFirst Plugin.dependencies tried)
    (htool : tool.type = 5 → ∀ front back, tried = front ++ .toolPlugin :: back →
      .sqlitePlugin ∈ front)
    (hhandled : ∀ p ∈ handled, p ∈ tried) (stopped : List Plugin) :
    HandleSafe tool
      (tried.map .startup ++ handled.map .handle ++ stopped.map .shutdown) := by
  intro before event after hevents hquery
  rcases append_eq_append_cons hevents with ⟨mid, hrunning, _⟩ | ⟨mid, _, hstopped⟩
  · rcases append_eq_append_cons hrunning with ⟨mid', hstarts, _⟩ | ⟨mid', rfl, hhandles⟩
    · obtain ⟨front, rest, rfl, rfl, hrest⟩ := List.map_eq_append_iff.1 hstarts
      obtain ⟨p, back, rfl, rfl, _⟩ := List.map_eq_cons_iff.1 hrest
      refine ⟨List.mem_map_of_mem ?_, by simp⟩
      cases p with
      | chainPlugin => exact hordered front _ back rfl _ (List.mem_singleton_self _)
      | toolPlugin => exact htool (of_decide_eq_true hquery) front back rfl
      | _ => cases hquery
    · obtain ⟨front, rest, rfl, rfl, hrest⟩ := List.map_eq_append_iff.1 hhandles
      obtain ⟨p, back, rfl, rfl, _⟩ := List.map_eq_cons_iff.1 hrest
      have hp : p ∈ tried := hhandled p (List.mem_append_right _ List.mem_cons_self)
      refine ⟨List.mem_append_left _ (List.mem_map_of_mem ?_), by simp⟩
      cases p with
      | chainApiPlugin =>
          have hchain : Needs Plugin.dependencies .chainApiPlugin .chainPlugin :=
            .single List.mem_cons_self
          exact hordered.needs_mem hp (hchain.tail (List.mem_singleton_self _))
      | _ => cases hquery
  · obtain ⟨front, rest, rfl, rfl, hrest⟩ := List.map_eq_append_iff.1 hstopped
    obtain ⟨p, back, rfl, rfl, _⟩ := List.map_eq_cons_iff.1 hrest
    cases hquery

theorem run_handleSafe {tool : ToolPlugin} {order : List Plugin}
    (htool : tool.type = 5 → ∀ before after, order = before ++ .toolPlugin :: after →
      .sqlitePlugin ∈ before) (c : Circumstances Plugin) :
    HandleSafe tool (Lifecycle.run Plugin.dependencies c order) := by
  rcases run_cases (D := Plugin.dependencies) c order with ⟨hrun, _⟩ | ⟨l, r, hl, hr, hcases⟩
  · rw [hrun]
    intro before event after hevents _
    cases before <;> cases hevents
  · have hfront : ∀ {tried}, tried <+: l → tool.type = 5 → ∀ front back,
        tried = front ++ .toolPlugin :: back → .sqlitePlugin ∈ front := by
      rintro tried ⟨rest, hrest⟩ htype front back rfl
      have hback : l = front ++ .toolPlugin :: (back ++ rest) := by
        rw [← hrest, List.append_assoc]
        rfl
      apply hl.mem_front (fun _ => Plugin.needs_tool) _ hback
      intro before after horder
      exact ⟨_, htool htype before after horder, .refl⟩
    rcases hcases with ⟨_, hrun⟩ | ⟨p, _, hp, hrun⟩
    · rw [hrun]
      apply handleSafe_of_order (hl.ordered.of_prefix hr) (hfront hr)
      intro q hq
      exact of_decide_eq_true (List.mem_filter.1 hq).2
    · have hnone : ∀ q ∈ ([] : List Plugin), q ∈ r ++ [p] := nofun
      have hsafe := handleSafe_of_order (hl.ordered.of_prefix hp) (hfront hp) hnone r.reverse
      rw [List.map_nil, List.append_nil] at hsafe
      rw [hrun]
      exact hsafe

def calm : Circumstances Plugin where
  initThrows _ := false
  startThrows _ := false
  quitAfter := Fintype.card Plugin
  handled := []

theorem run_not_handleSafe {tool : ToolPlugin} {order before after : List Plugin}
    (htype : tool.type = 5) (horder : order = before ++ .toolPlugin :: after)
    (hbefore : ∀ p ∈ before, ¬ Needs Plugin.dependencies p .sqlitePlugin) :
    ¬ HandleSafe tool (Lifecycle.run Plugin.dependencies calm order) := by
  intro hsafe
  obtain ⟨l, r, hl, hr, hall, hrun⟩ := run_calm (D := Plugin.dependencies) (c := calm) order
    (fun _ => rfl) (fun _ => rfl) rfl
  obtain rfl : r = l := hall hl.nodup.length_le_card
  obtain ⟨front, back, hfront, hsqlite⟩ := hl.not_mem_front (q := .sqlitePlugin) horder rfl
    nofun hbefore
  have hopened := (hsafe (front.map .startup) (.startup .toolPlugin) _ (by
    rw [hrun, hfront, List.map_append, List.append_assoc]
    rfl) (decide_eq_true htype)).1
  obtain ⟨p, hp, heq⟩ := List.mem_map.1 hopened
  cases heq
  exact hsqlite hp

/-- Every query of every run meets an open database, unless the tool is to check the chain
and comes before `sqlite_plugin`, which it does not require. -/
theorem handle_safe_iff (program : Program) (args : List Str) (tool : ToolPlugin)
    (options : ToolOptions) :
    (∀ c, HandleSafe (tool.pluginInitialize options)
      (program.run args (tool.pluginInitialize options) c)) ↔
    ¬ (tool.ChecksChain options ∧ ∃ before after,
      program.order args = some (before ++ .toolPlugin :: after) ∧
        .sqlitePlugin ∉ before) := by
  rw [← ToolPlugin.pluginInitialize_type]
  generalize tool.pluginInitialize options = tool
  constructor
  · rintro hsafe ⟨htype, before, after, horder, hsqlite⟩
    have hregistered := Program.order_registered horder
    have hbefore : ∀ p ∈ before, ¬ Needs Plugin.dependencies p .sqlitePlugin := by
      intro p hp hneed
      have heq := Program.needs_sqlite (hregistered _ (by simp)) (hregistered p (by simp [hp]))
        hneed
      exact hsqlite (heq ▸ hp)
    apply run_not_handleSafe htype rfl hbefore
    have hrun := hsafe calm
    have hstarts : tool.startupFails = false := by
      unfold ToolPlugin.startupFails
      rw [htype]
      rfl
    simp only [Program.run, horder, hstarts, Bool.and_false, Bool.or_false] at hrun
    exact hrun
  · intro hcond c
    rw [Program.run]
    cases horder : program.order args with
    | none =>
        intro before event after hevents _
        cases before <;> cases hevents
    | some order =>
        apply run_handleSafe
        intro htype before after heq
        by_contra hsqlite
        exact hcond ⟨htype, before, after, heq ▸ horder, hsqlite⟩

/-- `keosd --chkchain` with no other plugin. -/
theorem sample_unopened_handle :
    ¬ HandleSafe (ToolPlugin.pluginInitialize ⟨0, []⟩
        ⟨none, none, none, none, none, some "chain".toList⟩)
      (Program.keosd.run [] (ToolPlugin.pluginInitialize ⟨0, []⟩
        ⟨none, none, none, none, none, some "chain".toList⟩) calm) := by
  intro hsafe
  have hopened := (hsafe [] (.startup .toolPlugin) [.shutdown .toolPlugin] (by decide)
    (by decide)).1
  cases hopened

end SimpleBlockchain
