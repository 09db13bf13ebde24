import WhileLanguage.Environment

/-!
# Versions of environments

Environments are made one after another, from nothing or of one that there is already, and all of
them stay in use. An `Update` names the environment that it extends by its place among those that
there are. `Update.perform` puts back what is left of that one and the new one after all others.
-/

namespace WhileLanguage

/-- What makes one more environment. -/
inductive Update where
  | new
  | collect (bindings : List Binding)
  | extend (place : Nat) (name : String) (value : Value)
deriving DecidableEq

namespace Update

variable {Map : Type} [OrderedMap Map]

/-- The environments that there are after an update. Where no environment is, there is none to
extend. -/
def perform (envs : List (Environment Map)) : Update → List (Environment Map)
  | new => envs ++ [.empty]
  | collect bindings => envs ++ [.ofList bindings]
  | extend place name value =>
      match envs[place]? with
      | some env =>
          let (left, made) := env.extend name value
          envs.set place left ++ [made]
      | none => envs

/-- The environments that there are after updates, if there were none before. -/
def environments (Map : Type) [OrderedMap Map] (updates : List Update) : List (Environment Map) :=
  updates.foldl perform []

end Update

end WhileLanguage
