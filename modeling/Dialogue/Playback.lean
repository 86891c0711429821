import Dialogue.Interval
import Dialogue.Settings.Value

/-!
# Playback parameters

All responses of a group share the parameters of their playing. What a script does not set
stays unset. A sound level is whatever the settings have under its name.
-/

namespace Dialogue

/-- The playback parameters of a group. -/
structure Playback where
  predelay : Option Interval := none
  delay : Option Interval := none
  respeakDelay : Option Interval := none
  weaponDelay : Option Interval := none
  /-- The odds of playing at all, in percent. -/
  odds : Option Int := none
  /-- The sound level, null if it is not set. -/
  soundLevel : Settings.Value := .null
  speakOnce : Bool := false
  noScene : Bool := false
  stopOnNonidle : Bool := false
  deriving Repr, Inhabited

namespace Playback

/-- A parameter as descriptions show it. -/
def entry (name value : String) : String := name ++ "=" ++ value

/-- A flag as descriptions show it: only when it is raised. -/
def flag (name : String) (value : Bool) : List String := if value then [entry name "True"] else []

/-- The sound level as descriptions show it: only when it says anything. -/
def level (value : Settings.Value) : List String :=
  if value.isGiven then [entry "soundlevel" value.shown] else []

/-- The parameters that are set, in a fixed order. -/
def entries (p : Playback) : List String :=
  (p.predelay.map fun i => entry "predelay" i.shown).toList
    ++ (p.delay.map fun i => entry "delay" i.shown).toList
    ++ (p.respeakDelay.map fun i => entry "respeakdelay" i.shown).toList
    ++ (p.weaponDelay.map fun i => entry "weapondelay" i.shown).toList
    ++ (p.odds.map fun n => entry "odds" (toString n)).toList
    ++ level p.soundLevel
    ++ flag "speak_once" p.speakOnce
    ++ flag "dont_use_scene" p.noScene
    ++ flag "stop_on_nonidle" p.stopOnNonidle

/-- The parameters that are set, in one line. -/
def description (p : Playback) : String := String.intercalate " " p.entries

end Playback

end Dialogue
