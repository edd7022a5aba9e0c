import PriceBoard.Board.Basic
import PriceBoard.Decimal.Fixed

/-!
# The board as text

A line per row under the status line. Columns are padded to a number of
characters.
-/

namespace PriceBoard

open Decimal (fixed)
open Time (Timestamp)

def padLeft (width : Nat) (s : String) : String :=
  String.ofList (List.replicate (width - s.length) ' ' ++ s.toList)

def padRight (width : Nat) (s : String) : String :=
  String.ofList (s.toList ++ List.replicate (width - s.length) ' ')

namespace Row

/-- Whole milliseconds since the last update, toward zero. -/
def ageMillis {π : Type} (row : Row π) (now : Timestamp) : Int := now.millisSince row.lastUpdated

def ofInt (n : Int) : Float := if n < 0 then -Float.ofNat n.natAbs else Float.ofNat n.natAbs

def ageText {π : Type} (row : Row π) (now : Timestamp) : String :=
  fixed 1 (ofInt (row.ageMillis now) / 1000) ++ "s ago"

/-- The arrow and intensity of a visible highlight, or as much space. -/
def marker (row : Row Float) : String :=
  if 0 < row.intensity then row.direction.arrow ++ " " ++ fixed 2 row.intensity else "      "

def line (row : Row Float) (now : Timestamp) : String :=
  padRight 7 row.key ++ " " ++ padLeft 10 (fixed 4 row.bid) ++ " / " ++
  padRight 10 (fixed 4 row.ask) ++ " mid " ++ padLeft 10 (fixed 4 row.mid) ++ "  spr " ++
  fixed 5 row.spread ++ "  " ++ row.marker ++ "  " ++ row.ageText now

end Row

def Board.lines (b : Board Float) (now : Timestamp) : List String :=
  b.status :: b.rows.map (·.line now)

end PriceBoard
