namespace Netlab

structure Mac where
  bytes : List UInt8
  length_bytes : bytes.length = 6
deriving DecidableEq

namespace Mac

def zero : Mac := ⟨List.replicate 6 0, rfl⟩

/-- Add one to a number written in bytes, the highest first. There is no carry out of the first. -/
def increment? : List UInt8 → Option (List UInt8)
  | [] => none
  | b :: bs =>
    match increment? bs with
    | some bs' => some (b :: bs')
    | none => if b = 255 then none else some ((b + 1) :: List.replicate bs.length 0)

theorem length_increment? {bs bs' : List UInt8} (h : increment? bs = some bs') :
    bs'.length = bs.length := by
  induction bs generalizing bs' with
  | nil => simp [increment?] at h
  | cons b bs ih =>
    simp only [increment?] at h
    split at h
    · rename_i r hr
      cases h
      simp [ih hr]
    · split at h
      · simp at h
      · cases h
        simp

def succ? (m : Mac) : Option Mac :=
  match h : increment? m.bytes with
  | none => none
  | some bs => some ⟨bs, (length_increment? h).trans m.length_bytes⟩

def hex (b : UInt8) : String :=
  String.ofList [Nat.digitChar (b.toNat / 16), Nat.digitChar (b.toNat % 16)]

def text (m : Mac) : String :=
  String.intercalate ":" (m.bytes.map hex)

end Mac

end Netlab
