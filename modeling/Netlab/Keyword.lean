namespace Netlab

/-- The words that start a statement. None of them can be used as a name. -/
inductive Keyword where
  | controller
  | remoteController
  | host
  | switch
  | link
  | intent
  | up
  | down
  | ping
deriving DecidableEq

namespace Keyword

def all : List Keyword :=
  [controller, remoteController, host, switch, link, intent, up, down, ping]

def text : Keyword → String
  | controller => "controller"
  | remoteController => "remote_controller"
  | host => "host"
  | switch => "switch"
  | link => "link"
  | intent => "intent"
  | up => "up"
  | down => "down"
  | ping => "ping"

def ofText? (word : String) : Option Keyword :=
  all.find? (fun k => k.text = word)

def isReserved (word : String) : Bool :=
  (ofText? word).isSome

theorem mem_all (k : Keyword) : k ∈ all := by
  cases k <;> decide

theorem ofText?_eq_some_iff {word : String} {k : Keyword} :
    ofText? word = some k ↔ word = k.text := by
  constructor
  · intro h
    simpa [eq_comm] using List.find?_some h
  · rintro rfl
    cases k <;> decide

end Keyword

end Netlab
