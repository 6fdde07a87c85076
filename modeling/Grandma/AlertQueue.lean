import Grandma.Json

/-!
# The alert queue

Alerts stay in the queue for good. An alert that has been put into a package is
marked as being in transit and is not packaged again.
-/

set_option autoImplicit false

namespace Grandma

/-- The members of an alert that the queue looks at. -/
structure Alert where
  alertType : Str
  inTransit : Bool
  deriving DecidableEq, Repr

structure AlertQueue where
  alertQueue : List Alert

namespace AlertQueue

def empty : AlertQueue := { alertQueue := [] }

def alert (alertType : Str) : Alert := { alertType := alertType, inTransit := false }

def addAlert (q : AlertQueue) (a : Alert) : AlertQueue := { q with alertQueue := q.alertQueue++[a] }

def alertJson (a : Alert) : Json :=
  .ofMembers (OrderedMap.assign "AlertType".toList (.string a.alertType) [])

def packageAlerts : List Alert → List Json × List Alert
  | [] => ([],[])
  | a::as =>
    let (alerts,queue) := packageAlerts as
    if a.inTransit then (alerts,a::queue)
    else (alertJson a::alerts,{ a with inTransit := true }::queue)

def packageAlertJson (q : AlertQueue) : Json × AlertQueue :=
  let (alerts,queue) := packageAlerts q.alertQueue
  (.ofElems alerts,{ q with alertQueue := queue })

end AlertQueue

end Grandma
