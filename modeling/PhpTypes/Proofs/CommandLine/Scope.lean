import PhpTypes.CommandLine.Run
import PhpTypes.Proofs.Name.Imports

/-!
# The scope of a command

Annotations on the command line are read in a scope that is built in a fixed order: the namespace
and the aliases of the settings come first, then the namespace that is given as an option, then the
imports that are given as options (`commandScope_eq_build`). So options win over the settings, and
of two options the later one wins (`scopes_reflect_steps`).
-/

namespace PhpTypes

open Scope (Step)

/-- The steps that the settings describe. -/
def NamingConfig.steps (naming : NamingConfig) : List Step :=
  .setNamespace naming.space :: naming.aliases.map fun entry => .addAlias entry.1 entry.2

/-- Further steps go on where the first ones ended. -/
theorem Scope.foldl_apply (before after : List Step) :
    after.foldl Step.apply (build before) = build (before ++ after) :=
  List.foldl_append.symm

/-- The scope of the settings is built by the steps that they describe. -/
theorem Config.scope_eq_build (config : Config) :
    config.scope = Scope.build config.naming.steps := by
  rw [scope, Scope.build, NamingConfig.steps, List.foldl_cons, List.foldl_map]
  rfl

namespace CommandLine

/-- The step that an import on the command line stands for. -/
def useStep (text : String) : Step :=
  match Text.cutAt? '=' text.toList with
  | some (localName, target) =>
    .addAlias (.ofList (Text.trim localName)) (.ofList (Text.trim target))
  | none => .addImport (.ofList (Text.trim text.toList))

/-- The steps of a command. -/
def commandSteps (config : Config) (space : Option String) (uses : List String) : List Step :=
  config.naming.steps ++ space.toList.map (fun text => .setNamespace (some text)) ++
    uses.map useStep

/-- An import on the command line is one step. -/
theorem addUse_eq (s : Scope) (text : String) : addUse s text = (useStep text).apply s := by
  rw [addUse, useStep]
  cases Text.cutAt? '=' text.toList <;> rfl

/-- The scope of a command is built by the steps of the settings and then those of the options. -/
theorem commandScope_eq_build (config : Config) (space : Option String) (uses : List String) :
    commandScope config space uses = Scope.build (commandSteps config space uses) := by
  have huse : addUse = fun s text => (useStep text).apply s := funext fun s => funext (addUse_eq s)
  have huses (s : Scope) : uses.foldl addUse s = (uses.map useStep).foldl Step.apply s := by
    rw [huse, List.foldl_map]
  rw [commandScope, huses, Config.scope_eq_build, commandSteps, ← Scope.foldl_apply,
    ← Scope.foldl_apply]
  cases space <;> rfl

/-- **Of imports under one alias, in whatever letters, the last one wins.** This holds for every run
of steps, and so for the one that a command takes. -/
theorem scopes_reflect_steps :
    (∀ steps, (Scope.build steps).Reflects steps) ∧
    (∀ step : Step, step.isRefused = true → ∀ s, step.apply s = s) ∧
    ∀ config space uses,
      (commandScope config space uses).Reflects (commandSteps config space uses) := by
  refine ⟨Scope.build_reflects, fun _ h => Step.apply_of_isRefused h, fun config space uses => ?_⟩
  rw [commandScope_eq_build]
  exact Scope.build_reflects _

/-- An alias of the settings that an option replaces in other letters, with options behind it that
register nothing. -/
theorem scopes_reflect_steps_of_option :
    let config : Config :=
      { Config.default with naming := ⟨some "\\App\\", [("Model", "\\Db\\Model")]⟩ }
    let uses := ["MODEL = \\Orm\\Base", "Model=\\", "Vendor\\"]
    let scope := commandScope config none uses
    (useStep "Vendor\\").isRefused = true ∧ (useStep "Vendor\\").apply scope = scope ∧
      scope.current = some "App" ∧ scope.target? "model" = some "Orm\\Base" := by
  intro config uses scope
  have hrefused : (useStep "Vendor\\").isRefused = true := by decide
  have hsteps : commandSteps config none uses = [.setNamespace (some "\\App\\"),
      .addAlias "Model" "\\Db\\Model", .addAlias "MODEL" "\\Orm\\Base", .addAlias "Model" "\\",
      .addImport "Vendor\\"] := by decide
  have hscope := scopes_reflect_steps.2.2 config none uses
  rw [hsteps] at hscope
  refine ⟨hrefused, scopes_reflect_steps.2.1 _ hrefused scope, ?_, ?_⟩
  · refine (hscope.current_iff _).mpr (.inl ⟨[], _, _, rfl, ?_, fun later hlater other h => ?_⟩)
    · exact .inner ⟨by decide, by decide, ['\\'], ['\\'], by decide, by decide, by decide⟩
        (by decide)
    · cases h <;> simp at hlater
  · refine (hscope.target?_iff _ _).mpr ⟨[_, _], _, [_, _], rfl, ?_, ?_⟩
    · exact .ofAlias (by decide) (by decide) ⟨by decide, ['\\'], by decide, by decide⟩ (by decide)
    · intro later hlater other
      refine Step.not_registers_of_isRefused ?_
      revert later
      decide

end CommandLine

end PhpTypes
