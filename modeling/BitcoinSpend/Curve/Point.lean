import BitcoinSpend.Curve.Basic

namespace BitcoinSpend

namespace Point

variable {E : Curve}

def OnCurve : Point E → Prop
  | infinity => True
  | affine x y => E.Satisfies x y

def isInfinity : Point E → Bool
  | infinity => true
  | affine _ _ => false

instance : Neg (Point E) where
  neg
    | infinity => infinity
    | affine x y => affine x (-y)

-- The third intersection of the line with slope `slope` through two points
-- with the given abscissas, reflected. The line passes through `(x₁, y₁)`.
def reflectThird (slope x₁ y₁ x₂ : Residue E.prime) : Point E :=
  let x₃ := slope * slope - x₁ - x₂
  affine x₃ (slope * (x₁ - x₃) - y₁)

-- Addition by chord and tangent. A vertical line meets the curve at infinity.
protected def add : Point E → Point E → Point E
  | infinity, Q => Q
  | P, infinity => P
  | affine x₁ y₁, affine x₂ y₂ =>
      if x₁ = x₂ then
        if y₁ ≠ y₂ ∨ y₁.value = 0 then infinity
        else reflectThird (((x₁ * x₁).scale 3 + E.a) / y₁.scale 2) x₁ y₁ x₂
      else reflectThird ((y₂ - y₁) / (x₂ - x₁)) x₁ y₁ x₂

instance : Add (Point E) where
  add := Point.add

-- Adds `k` times `addend` to `total`, doubling `addend` from bit to bit.
def accumulate (total addend : Point E) (k : Nat) : Point E :=
  if k = 0 then total
  else accumulate (if k % 2 = 1 then total + addend else total) (addend + addend) (k / 2)
termination_by k
decreasing_by omega

-- A multiple of a point. A negative multiple is one of the inverse point.
def mul (k : Int) (P : Point E) : Point E :=
  accumulate infinity (if k < 0 then -P else P) k.natAbs

-- The same point under another name of the curve.
def cast {F : Curve} (same : E = F) (P : Point E) : Point F :=
  same ▸ P

def render : Point E → String
  | infinity => "Point(infinity)"
  | affine x y =>
      "Point(" ++ toString x.value ++ "," ++ toString y.value ++ ")_" ++ toString E.a.value ++
        "_" ++ toString E.b.value ++ " FieldElement(" ++ toString E.prime ++ ")"

end Point

-- A point together with its curve, for curves that are known only at run time.
structure CurvePoint where
  curve : Curve
  point : Point curve
deriving DecidableEq

namespace CurvePoint

-- The point as one of the given curve, which has to be its own.
def onto (E : Curve) (P : CurvePoint) : Except Error (Point E) :=
  if same : P.curve = E then .ok (P.point.cast same) else .error .curveMismatch

def add (P Q : CurvePoint) : Except Error CurvePoint := do
  let other ← Q.onto P.curve
  return ⟨P.curve, P.point + other⟩

def neg (P : CurvePoint) : CurvePoint :=
  ⟨P.curve, -P.point⟩

def mul (k : Int) (P : CurvePoint) : CurvePoint :=
  ⟨P.curve, P.point.mul k⟩

end CurvePoint

end BitcoinSpend
