/-!
# Dice.Release

The version of this program, and the versions of its host that it runs on.

* `version` : the version, as it is shown;
* `supports` : whether the host is recent enough;
* `refusal` : what is said on a host that is not.
-/

namespace Dice.Release

def version : String := "0.1.0"

/-- The least version of the host. -/
def leastHost : List Int := [3, 6]

/-- Only the first two parts of a version count. A version that is shorter comes before the longer
ones that begin with it. -/
def supports (host : List Int) : Bool :=
  !decide (host.take 2 < leastHost)

def refusal : List String := [
  "This entire program must be run with python >= 3.6",
  "If unavailable on platform, see https://github.com/pyenv/pyenv"]

end Dice.Release
