/-
  Screenmark — plug-ins.

  The command does not recognise anything itself. It hands images to a plug-in, a
  library that is loaded when the command starts and that all sessions share. Of
  what the library remembers from one call to the next nothing is known.

  A plug-in may report that a call failed: the match is then at no place and not
  sure at all, and the text is empty.
-/
import Screenmark.Scan.Instruments
import Screenmark.Text.Quoted
import Screenmark.Time.Zone

namespace Screenmark

namespace Command

/-- A library that looks for templates and reads texts, where a text is what is found in
    the buffer that the library was given for it; `π` is what it remembers. -/
structure Plugin (π : Type) where
  find : GreyImage → GreyImage → π → Option Match × π
  recognise : GreyImage → Charset → π → Option String × π

/-- Why a library is no plug-in, in the words of the system. -/
inductive PluginFault where
  | unloaded (cause : String)
  | missingSymbol (symbol cause : String)

/-- The wordings of a fault of the library at a path, the nearest first. -/
def PluginFault.reasons (path : String) : PluginFault → List String
  | .unloaded cause => ["Failed to load plug-in " ++ Text.quoted path ++ ": " ++ cause, cause]
  | .missingSymbol symbol cause =>
    ["Plug-in " ++ Text.quoted path ++ " does not export '" ++ symbol ++ "': " ++ cause, cause]

/-- What the command meets beside files. -/
structure Machine (π : Type) where
  /-- The zone of its clock. -/
  zone : Zone
  /-- The library at a path. -/
  load : String → Except PluginFault (Plugin π)
  /-- What a library remembers before the first call. -/
  fresh : π

/-- The places in the frames of the recording and in those of another one, and what
    the plug-in remembers. -/
structure Places (π : Type) where
  own : Nat
  other : Nat
  plugin : π

namespace Plugin

variable {π : Type}

/-- The plug-in as a matcher. -/
def matcher (p : Plugin π) (region template : GreyImage) (w : Places π) : Match × Places π :=
  let (m, plugin) := p.find region template w.plugin
  (m.getD ⟨.zero, .zero, .zero⟩, { w with plugin := plugin })

/-- The plug-in as a recogniser. -/
def recogniser (p : Plugin π) (region : GreyImage) (characters : Charset) (w : Places π) :
    String × Places π :=
  let (s, plugin) := p.recognise region characters w.plugin
  (s.getD "", { w with plugin := plugin })

end Plugin

end Command

end Screenmark
