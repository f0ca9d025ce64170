import ServerHttpLib.Lib.Tracked
import ServerHttpLib.Sql.Wrapper

/-!
# What statements preserve

`query`, `reconnect` and `set_schema` call each other.  What all of them preserve follows from what
their parts preserve: one attempt, the part of `reconnect` that has the mutex, and `set_schema` with
any `query`.
-/

namespace ServerHttpLib
open Programs

namespace MysqlWrapper

variable {α L : Type} {π : Tracking Act.Reply L} {P : L → Prop}

theorem preserves_catchSql {p : Method α} {handler : Int → Method α} (h : p.Preserves π P)
    (hh : ∀ code, (handler code).Preserves π P) : (catchSql p handler).Preserves π P := by
  refine h.catching fun e => ?_
  cases e with
  | sql code => exact hh code
  | invalidArgument => exact Program.preserves_done _
  | outOfFuel => exact Program.preserves_done _

/-- the parts of `query`, `query_get` and `reconnect` preserve `P` -/
structure Serves (π : Tracking Act.Reply L) (P : L → Prop) : Prop where
  members : members.Preserves π P
  reconnectLocked : reconnectLocked.Preserves π P
  setSchema : ∀ query : Bytes → Method Bool,
    (∀ schema, (query (createSchema schema)).Preserves π P) →
      ∀ schema, (setSchema query schema).Preserves π P
  tryQuery : ∀ origin q, (tryQuery origin q).Preserves π P
  tryQueryGet : ∀ origin q, (tryQueryGet origin q).Preserves π P

namespace Serves
variable (h : Serves π P)
include h

section
variable {query : Bytes → Method Bool}
  (hquery : ∀ schema, (query (createSchema schema)).Preserves π P)
include hquery

theorem reconnect : (reconnect query).Preserves π P := by
  refine h.reconnectLocked.bind fun _ => h.members.bind fun m => ?_
  split
  · exact Program.preserves_done _
  · exact h.setSchema query hquery .member

theorem attempts {tryOnce : Method α} (htry : tryOnce.Preserves π P) (failed : α) (left : Nat) :
    (attempts query tryOnce failed left).Preserves π P := by
  induction left with
  | zero => exact Program.preserves_done _
  | succ left ih =>
    refine preserves_catchSql htry fun code => ?_
    split
    · exact (h.reconnect hquery).bind fun _ => ih
    · exact Program.preserves_done _

end

theorem query (fuel : Nat) (origin : Origin) (q : Bytes) :
    (query fuel origin q).Preserves π P := by
  induction fuel generalizing origin q with
  | zero => exact Program.preserves_done _
  | succ fuel ih => exact h.attempts (fun _ => ih _ _) (h.tryQuery origin q) false 2

theorem queryGet (fuel : Nat) (origin : Origin) (q : Bytes) :
    (queryGet fuel origin q).Preserves π P :=
  h.attempts (fun _ => h.query fuel _ _) (h.tryQueryGet origin q) none 2

end Serves

end MysqlWrapper

end ServerHttpLib
