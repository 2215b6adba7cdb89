import Pathwise.Catalogue.Program

/-!
# Small arithmetic programs

Absolute value, maximum, sign and clamping, with variants that mean the same and variants that go
wrong in a corner.
-/

namespace Pathwise.Catalogue

open IntExpr (lit param var)
open BoolExpr (compare)
open Stmt (set ret branch)

def absScript : Script := [
  branch (compare .lt (param "x") (lit 0)) [ret (.unary .neg (param "x"))] [],
  ret (param "x")]

def absSaturating : Script := [
  branch (compare .lt (param "x") (lit 0)) [
    branch (compare .eq (param "x") (lit Int64.minValue)) [ret (lit Int64.maxValue)] [],
    ret (.unary .neg (param "x"))] [],
  ret (param "x")]

def absBranchless : Script := [
  set "mask" (.binary .ashr (param "x") (lit 63)),
  ret (.binary .sub (.binary .xor (param "x") (var "mask")) (var "mask"))]

def maxScript : Script := [
  branch (compare .ge (param "a") (param "b")) [ret (param "a")] [],
  ret (param "b")]

def maxBranchless : Script := [
  set "mask" (.unary .neg (.ofBool (compare .ge (param "a") (param "b")))),
  ret (.binary .xor (param "b")
    (.binary .and (.binary .xor (param "a") (param "b")) (var "mask")))]

def maxStrict : Script := [
  branch (compare .gt (param "a") (param "b")) [ret (param "a")] [],
  ret (param "b")]

def minScript : Script := [
  branch (compare .le (param "a") (param "b")) [ret (param "a")] [],
  ret (param "b")]

def signScript : Script := [
  branch (compare .gt (param "x") (lit 0)) [ret (lit 1)] [],
  branch (compare .lt (param "x") (lit 0)) [ret (lit (-1))] [],
  ret (lit 0)]

def signShift : Script := [
  ret (.binary .or (.binary .ashr (param "x") (lit 63))
    (.binary .lshr (.unary .neg (param "x")) (lit 63)))]

def signNonNegative : Script := [
  branch (compare .lt (param "x") (lit 0)) [ret (lit (-1))] [],
  ret (lit 1)]

def clampScript : Script := [
  branch (compare .lt (param "x") (param "lo")) [ret (param "lo")] [],
  branch (compare .gt (param "x") (param "hi")) [ret (param "hi")] [],
  ret (param "x")]

/-- Differs from the reference where the bounds are the wrong way round. -/
def clampUpperFirst : Script := [
  branch (compare .gt (param "x") (param "hi")) [ret (param "hi")] [],
  branch (compare .lt (param "x") (param "lo")) [ret (param "lo")] [],
  ret (param "x")]

def clampMinMax : Script := [
  set "m" (param "x"),
  branch (compare .lt (param "hi") (var "m")) [set "m" (param "hi")] [],
  branch (compare .gt (param "lo") (var "m")) [set "m" (param "lo")] [],
  ret (var "m")]

def abs : Program where
  name := "abs"
  description := "absolute value, wrapping on the minimum integer"
  params := ["x"]
  reference := absScript
  variants := [
    ⟨"saturating", "returns the maximum integer for the minimum one", absSaturating⟩,
    ⟨"branchless", "xor with the sign mask", absBranchless⟩]

def max : Program where
  name := "max"
  description := "larger of two integers"
  params := ["a", "b"]
  reference := maxScript
  variants := [
    ⟨"branchless", "selects with a mask built from the comparison", maxBranchless⟩,
    ⟨"strict", "compares with > instead of >=", maxStrict⟩,
    ⟨"min", "returns the smaller one", minScript⟩]

def sign : Program where
  name := "sign"
  description := "-1, 0 or 1 following the sign of x"
  params := ["x"]
  reference := signScript
  variants := [
    ⟨"shift", "combines the arithmetic and logical shifts of x and -x", signShift⟩,
    ⟨"nonneg", "treats zero as positive", signNonNegative⟩]

def clamp : Program where
  name := "clamp"
  description := "x limited to [lo, hi]"
  params := ["x", "lo", "hi"]
  reference := clampScript
  variants := [
    ⟨"upper_first", "tests the upper bound first", clampUpperFirst⟩,
    ⟨"minmax", "max(lo, min(x, hi))", clampMinMax⟩]

end Pathwise.Catalogue
