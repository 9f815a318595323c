/-
  Screenmark — time zones.

  A clock on the wall shows another time than the one counted since the start of
  1970: it is ahead of that time by less than a day, or behind it, and by how much
  may change from one moment to another.
-/
import Screenmark.Time.Calendar

namespace Screenmark

/-- The times that clocks on the wall show. -/
structure Zone where
  /-- The seconds by which clocks are ahead at a moment. -/
  ahead : Moment → Int
  within : ∀ t, -86400 < ahead t ∧ ahead t < 86400

namespace Zone

/-- Clocks that show the time that is counted. -/
def utc : Zone := ⟨fun _ => 0, fun _ => by decide⟩

/-- The time that clocks show at a moment. -/
def shown (z : Zone) (t : Moment) : Moment := t.add (z.ahead t * 1000000)

end Zone

end Screenmark
