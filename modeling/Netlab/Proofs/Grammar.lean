import Mathlib.Computability.Language
import Netlab.Token

namespace Netlab.Grammar

open Computability

/-- The words of one lexeme that satisfies `p`. -/
def lexeme (p : Lexeme → Prop) : Language Lexeme := {ls | ∃ l, ls = [l] ∧ p l}

def mark (kind : Kind) : Language Lexeme := lexeme fun l => l.kind = kind

def word (text : String) : Language Lexeme := lexeme fun l => l.kind = .name ∧ l.text = text

def keywords : List String :=
  ["controller", "remote_controller", "host", "switch", "link", "intent", "up", "down", "ping"]

def name : Language Lexeme := lexeme fun l => l.kind = .name ∧ l.text ∉ keywords

def string : Language Lexeme := mark .string

def number : Language Lexeme := mark .number

def value : Language Lexeme := name + string + number

def listing (opening : Kind) (item : Language Lexeme) (closing : Kind) : Language Lexeme :=
  mark opening * (1 + item * (mark .comma * item)∗) * mark closing

def array : Language Lexeme := listing .openBracket value .closeBracket

def object : Language Lexeme := listing .openBrace (string * mark .colon * value) .closeBrace

def intMap : Language Lexeme := listing .openBrace (number * mark .colon * number) .closeBrace

/-- All of the required parts and some of the optional ones, each once and in any order. -/
def anyOrder (required optional : List (Language Lexeme)) : Language Lexeme :=
  {ls | ∃ chosen order : List (Language Lexeme),
    chosen.Sublist optional ∧ order.Perm (required ++ chosen) ∧ ls ∈ order.prod}

def controller : Language Lexeme := word "controller" * value

def remoteController : Language Lexeme :=
  word "remote_controller" * name * word "host" * string * word "port" * number

def host : Language Lexeme :=
  word "host" * name *
    anyOrder [word "image" * string]
      [word "ip" * string, word "mac" * string, word "ports" * array,
        word "port_bindings" * intMap, word "env" * object, word "cmd" * array]

def switch : Language Lexeme := word "switch" * name * name∗

def link : Language Lexeme :=
  word "link" * name *
    anyOrder [word "src" * name, word "dst" * name]
      [word "port1" * number, word "port2" * number, word "cls" * name, word "delay" * string,
        word "bw" * number]

def intent : Language Lexeme :=
  word "intent" * name * mark .arrow * name * (mark .arrow * name)∗

def up : Language Lexeme := word "up"

def ping : Language Lexeme := word "ping" * name * name∗

def down : Language Lexeme := word "down"

def statement : Language Lexeme :=
  controller + remoteController + host + switch + link + intent + up + ping + down

def program : Language Lexeme := statement * statement∗

end Netlab.Grammar
