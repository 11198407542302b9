import CheckedExpr.EvalError
import CheckedExpr.Number.Remainder
import CheckedExpr.Number.Words
import CheckedExpr.Operator
import CheckedExpr.Value.Comparison
import CheckedExpr.Value.Key

/-!
# What operators do to values

Every operator takes every value: it converts its operands to what it works on, to numbers, to
words of 32 bits, to truth values or to primitive values. Only `in` refuses an operand.
-/

namespace CheckedExpr

variable {κ : Type}

/-- The value of a unary operator at a value. -/
def UnaryOp.apply (op : UnaryOp) (v : Value κ) : Value κ :=
  match op with
  | neg => .number (-v.toNumber)
  | plus => .number v.toNumber
  | not => .boolean !v.isTruthy
  | bitNot => .number (Number.ofSigned (~~~Number.word v.toNumber))

/-- The sum of two numbers, or two texts in a row if one operand is a string as a primitive
value. -/
def Value.add (v w : Value κ) : Value κ :=
  -- a composite value has become its text by now, so it joins texts as well
  match v.toPrimitive, w.toPrimitive with
  | .string s, q => .string (s ++ q.text)
  | p, .string t => .string (p.text ++ t)
  | p, q => .number (p.toNumber + q.toNumber)

namespace BinaryOp

/-- The word that an operator on words makes of two words; the other operators make the left one. -/
def onWords (op : BinaryOp) (x y : BitVec 32) : BitVec 32 :=
  match op with
  | bitOr => x ||| y
  | bitXor => x ^^^ y
  | bitAnd => x &&& y
  | shl => x <<< Number.shiftCount y
  -- the sign is shifted in from the left
  | shr => x.sshiftRight (Number.shiftCount y)
  | ushr => x >>> Number.shiftCount y
  | _ => x

/-- The value of a binary operator at two values, of which both are there. -/
def apply (op : BinaryOp) (v w : Value κ) : Except (EvalError κ) (Value κ) :=
  match op with
  | add => .ok (v.add w)
  | sub => .ok (.number (v.toNumber - w.toNumber))
  | mul => .ok (.number (v.toNumber * w.toNumber))
  | div => .ok (.number (v.toNumber / w.toNumber))
  | rem => .ok (.number (Number.remainder v.toNumber w.toNumber))
  | bitOr | bitXor | bitAnd | shl | shr =>
    .ok (.number (Number.ofSigned (op.onWords (Number.word v.toNumber) (Number.word w.toNumber))))
  | ushr =>
    .ok (.number (Number.ofUnsigned (op.onWords (Number.word v.toNumber) (Number.word w.toNumber))))
  | eq => .ok (.boolean (v.looseEquals w))
  | ne => .ok (.boolean !v.looseEquals w)
  | strictEq => .ok (.boolean (v.strictEquals w))
  | strictNe => .ok (.boolean !v.strictEquals w)
  | lt => .ok (.boolean (v.compare w == some .lt))
  | gt => .ok (.boolean (v.compare w == some .gt))
  -- what is not ordered is neither less nor equal, so this is not the negation of greater
  | le => .ok (.boolean ((v.compare w).any (· != .gt)))
  | ge => .ok (.boolean ((v.compare w).any (· != .lt)))
  -- the right operand is searched, the left one is the key
  | isIn =>
    match w.hasKey? v with
    | some found => .ok (.boolean found)
    | none => .error (.notSearchable w)
  | nullish => .ok (if v.isNullish then w else v)

end BinaryOp

end CheckedExpr
