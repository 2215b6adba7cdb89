import Pathwise.Catalogue.Program

/-!
# Programs with more paths

Classifying triangles, and the greatest common divisor by a bounded number of steps, so that there
are finitely many paths.
-/

namespace Pathwise.Catalogue

open IntExpr (lit param var)
open BoolExpr (compare)
open Stmt (set ret branch loop)

/-! ### Triangles -/

def either (c d : BoolExpr) : BoolExpr := .join .or c d

/-- Classifies the sides. The third way to be isosceles is looked at on demand. -/
def classify (checkOuter : Bool) : Script :=
  let a := param "a"
  let b := param "b"
  let c := param "c"
  let isosceles := either (compare .eq a b) (compare .eq b c)
  [ branch (either (either (compare .le a (lit 0)) (compare .le b (lit 0))) (compare .le c (lit 0)))
      [ret (lit 0)] [],
    branch (either (either (compare .ge a (.binary .add b c)) (compare .ge b (.binary .add a c)))
        (compare .ge c (.binary .add a b)))
      [ret (lit 0)] [],
    branch (.join .and (compare .eq a b) (compare .eq b c)) [ret (lit 3)] [],
    branch (if checkOuter then either isosceles (compare .eq a c) else isosceles) [ret (lit 2)] [],
    ret (lit 1)]

/-- Exchanges two variables. -/
def swap (x y : String) : List Stmt := [set "t" (var x), set x (var y), set y (var "t")]

def triangleSorted : Script := [
  set "a" (param "a"), set "b" (param "b"), set "c" (param "c"),
  branch (compare .gt (var "a") (var "b")) (swap "a" "b") [],
  branch (compare .gt (var "b") (var "c")) (swap "b" "c") [],
  branch (compare .gt (var "a") (var "b")) (swap "a" "b") [],
  branch (compare .le (var "a") (lit 0)) [ret (lit 0)] [],
  branch (compare .ge (var "c") (.binary .add (var "a") (var "b"))) [ret (lit 0)] [],
  branch (compare .eq (var "a") (var "c")) [ret (lit 3)] [],
  branch (either (compare .eq (var "a") (var "b")) (compare .eq (var "b") (var "c")))
    [ret (lit 2)] [],
  ret (lit 1)]

def triangle : Program where
  name := "triangle"
  description := "classifies side lengths: 0 invalid, 1 scalene, 2 isosceles, 3 equilateral"
  params := ["a", "b", "c"]
  reference := classify true
  variants := [
    ⟨"sorted", "sorts the sides before classifying", triangleSorted⟩,
    ⟨"missing_ac", "forgets the a == c isosceles case", classify false⟩]

/-! ### Greatest common divisor -/

/-- Euclid's algorithm by at most `steps` remainders. -/
def euclid (steps : Nat) : Script := [
  set "a" (param "a"), set "b" (param "b"),
  loop (.lit true) steps [
    branch (compare .eq (var "b") (lit 0)) [ret (var "a")] [],
    set "t" (.binary .rem (var "a") (var "b")),
    set "a" (var "b"),
    set "b" (var "t")],
  ret (var "a")]

/-- The steps of the reference. -/
def gcdSteps : Nat := 8

def gcdSubtractive : Script := [
  set "a" (param "a"), set "b" (param "b"),
  loop (.lit true) gcdSteps [
    branch (compare .eq (var "a") (var "b")) [ret (var "a")] [],
    branch (compare .gt (var "a") (var "b"))
      [set "a" (.binary .sub (var "a") (var "b"))]
      [set "b" (.binary .sub (var "b") (var "a"))]],
  ret (var "a")]

def gcd : Program where
  name := "gcd"
  description := "Euclid's algorithm, at most 8 steps"
  params := ["a", "b"]
  reference := euclid gcdSteps
  variants := [
    ⟨"subtractive", "repeated subtraction instead of remainder", gcdSubtractive⟩,
    ⟨"short", "stops after 4 steps", euclid 4⟩]

end Pathwise.Catalogue
