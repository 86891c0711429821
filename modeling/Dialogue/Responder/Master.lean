import Dialogue.Responder.Basic
import Dialogue.Responder.Derivation

/-!
# The main system and its instances

The main system is loaded from the configured script. It keeps a register of instances by
name: systems loaded from a script of their own, whose path is their name, and systems
derived from the main one. Instances that leave the register are kept apart, since their
callers may still hold them.
-/

namespace Dialogue

/-- The main system and its instances. -/
structure Master where
  database : Database := {}
  /-- The registered instances, in the order in which their names came up. -/
  instances : List (String × Database) := []
  /-- The instances that have left the register. -/
  retired : List (String × Database) := []
  /-- Some instance was derived, and such instances manage themselves. -/
  selfManaging : Bool := false
  deriving Inhabited

namespace Master

variable {ρ : Type}

/-- The database of a name in a list of instances. -/
def lookup? (name : String) : List (String × Database) → Option Database
  | [] => none
  | (n, db) :: rest => if n = name then some db else lookup? name rest

/-- Puts a database in the place of a name, or at the end if the name is new. -/
def put (name : String) (db : Database) : List (String × Database) → List (String × Database)
  | [] => [(name, db)]
  | (n, old) :: rest => if n = name then (n, db) :: rest else (n, old) :: put name db rest

/-- Whether an instance is registered. -/
def isRegistered (m : Master) (name : String) : Bool := (lookup? name m.instances).isSome

/-- An instance, registered or not. -/
def instance? (m : Master) (name : String) : Option Database :=
  (lookup? name m.instances).or (lookup? name m.retired)

/-- Registers an instance. It takes the place of one of the same name. -/
def register (m : Master) (name : String) (db : Database) : Master :=
  { m with
    instances := put name db m.instances
    retired := m.retired.filter fun (n, _) => n != name }

/-- Changes an instance, registered or not. -/
def updateInstance (m : Master) (name : String) (db : Database) : Master :=
  if m.isRegistered name then { m with instances := put name db m.instances }
  else { m with retired := put name db m.retired }

/-- Takes an instance out of the register. -/
def retire (m : Master) (name : String) : Master :=
  match lookup? name m.instances with
  | none => m
  | some db =>
    { m with
      instances := m.instances.filter fun (n, _) => n != name
      retired := put name db m.retired }

/-- Empties all registered instances and takes them out of the register. -/
def releaseAll (m : Master) : Master :=
  { m with
    instances := []
    retired := m.instances.foldl (fun retired (name, _) => put name {} retired) m.retired }

/-- An act on the main system. -/
def onMain {α : Type} (act : Act Database ρ α) : Act Master ρ α :=
  Act.onPart database (fun db m => { m with database := db }) act

/-- An act on an instance. -/
def onInstance {α : Type} (name : String) (act : Act Database ρ α) : Act Master ρ α :=
  Act.onPart (fun m => (m.instance? name).getD {}) (fun db m => m.updateInstance name db) act

/-- Loads a system from its script. A script that cannot be read leaves it as it is. -/
def init (settings : Settings) (files : Files) (script : Settings.Value) :
    Act Database ρ Bool := do
  let _ ← Responder.loadFrom settings files script
  return true

/-- Empties all systems. -/
def shutdown : Act Master ρ Unit := do
  Act.modify releaseAll
  onMain Responder.clear

/-- Starts a level: responses are made ready if that is wanted, and groups start afresh. -/
def startLevel (settings : Settings) (ready : Bool) : Act Master ρ Unit := do
  let m ← Act.subject
  if settings.precache && ready then Responder.precache settings m.database
  onMain Responder.resetGroups

/-- The instance for a script, loaded if it is not registered yet, and made ready if that is
wanted. -/
def custom (settings : Settings) (files : Files) (script : String) (ready : Bool) :
    Act Master ρ Unit := do
  let m ← Act.subject
  if !m.isRegistered script then
    let db ← Act.onPart (fun _ => {}) (fun _ m => m) (do
      let _ ← init settings files (.text script)
      Act.subject)
    Act.modify fun m => m.register script db
  if ready then
    let m ← Act.subject
    Responder.precache settings ((m.instance? script).getD {})

/-- Derives an instance from the main system and registers it. Gives its database. -/
def build (base name : String) (facts : Facts) (threshold : Float) : Act Master ρ Database := do
  Act.log .debug ("building custom response system " ++ name ++ " from " ++ base)
  let m ← Act.subject
  let db ← Act.ofNoted (Derivation.derive m.database facts threshold)
  Act.modify fun m => { m.register name db with selfManaging := true }
  return db

/-- Reloads instances one after the other, or lets them go if they manage themselves. -/
def reloadInstances (settings : Settings) (files : Files) : List String → Act Master ρ Unit
  | [] => pure ()
  | name :: rest => do
    let m ← Act.subject
    if m.selfManaging then Act.modify (·.retire name)
    else
      onInstance name Responder.clear
      let _ ← onInstance name (init settings files (.text name))
    reloadInstances settings files rest

/-- Reloads everything: the main system first, then the instances, the last one first. -/
def reload (settings : Settings) (files : Files) : Act Master ρ Unit := do
  onMain Responder.clear
  let _ ← onMain (init settings files settings.scriptFile)
  let m ← Act.subject
  reloadInstances settings files (m.instances.map (·.1)).reverse

end Master

end Dialogue
