import RasterScript.Number.Arithmetic

/-! Statistics of a sample. NaN values do not count, and a sample without values has none. -/
namespace RasterScript

inductive Statistic where
  | max | min | mean | median | mode | range | sdev | sum | variance
deriving DecidableEq, Repr

namespace Statistic

open Arithmetic (less nan isNaN ofInt)

variable {ν : Type} [Arithmetic ν]

/-- The sum from left to right. -/
def total (v : ν) (vs : List ν) : ν := vs.foldl (· + ·) v

/-- The largest value, the last of equal ones. -/
def largest (v : ν) (vs : List ν) : ν := vs.foldl Arithmetic.max v

/-- The smallest value, the last of equal ones. -/
def smallest (v : ν) (vs : List ν) : ν := vs.foldl Arithmetic.min v

/-- The values in ascending order; equal ones keep theirs. -/
def sorted (vs : List ν) : List ν := vs.mergeSort fun a b => !less b a

section Mode

variable {α : Type} [BEq α]

/-- Where the run of values equal to the one at `i` ends, looked for from `j` on; nothing if a place
is out of range. -/
def runEnd? (vs : Array α) (i j : Nat) : Option Nat :=
  if j < vs.size then
    match vs[i]?, vs[j]? with
    | some v, some w => if w == v then runEnd? vs i (j + 1) else some j
    | _, _ => none
  else some j
termination_by vs.size - j

/-- The value of the longest run of equal neighbours, the first of several, among the runs from `i`
on and the best one before them; nothing if a place is out of range. -/
def longestRun? (vs : Array α) (i : Nat) (best : α) (count : Nat) : Option α :=
  if i < vs.size then
    match vs[i]?, runEnd? vs i i with
    | some v, some j =>
      if i < j then
        if count < j - i then longestRun? vs j v (j - i) else longestRun? vs j best count
      -- From an empty run the scan would not get on.
      else none
    | _, _ => none
  else some best
termination_by vs.size - i

def mode? (vs : Array α) : Option α := vs[0]?.bind fun first => longestRun? vs 0 first 0

end Mode

/-- The most frequent value of ascending ones, the smallest of several. -/
def modeOf (vs : List ν) : ν := (mode? vs.toArray).getD nan

/-- The middle of ascending values, or the mean of the two in the middle. -/
def middle (vs : List ν) : ν :=
  let half := vs.length / 2
  let upper := vs.getD half nan
  if vs.length % 2 = 0 then (vs.getD (half - 1) nan + upper) / ofInt 2 else upper

def count (vs : List ν) : ν := ofInt (vs.length + 1 : Nat)

def average (v : ν) (vs : List ν) : ν := total v vs / count vs

/-- The sum of squared distances from the mean over one less than the count; a single value has
none. -/
def spread (v : ν) (vs : List ν) : ν :=
  if vs.isEmpty then nan
  else
    let m := average v vs
    let square (w : ν) : ν := (w - m) * (w - m)
    total (square v) (vs.map square) / ofInt vs.length

def ofSample (s : Statistic) (v : ν) (vs : List ν) : ν :=
  match s with
  | max => largest v vs
  | min => smallest v vs
  | sum => total v vs
  | mean => average v vs
  | range => largest v vs - smallest v vs
  | median => middle (sorted (v :: vs))
  | mode => modeOf (sorted (v :: vs))
  | variance => spread v vs
  | sdev => Arithmetic.sqrt (spread v vs)

/-- The statistic of the values that are numbers. -/
def apply (s : Statistic) (values : List ν) : ν :=
  match values.filter fun v => !isNaN v with
  | [] => nan
  | v :: vs => s.ofSample v vs

def name : Statistic → String
  | max => "max"
  | min => "min"
  | mean => "mean"
  | median => "median"
  | mode => "mode"
  | range => "range"
  | sdev => "sdev"
  | sum => "sum"
  | variance => "variance"

def all : List Statistic := [max, min, mean, median, mode, range, sdev, sum, variance]

end Statistic

end RasterScript
