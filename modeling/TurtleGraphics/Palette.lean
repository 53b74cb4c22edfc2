/-! The colours that have a name, each with its packed `0xRRGGBB` value. -/

namespace TurtleGraphics

inductive Palette
  | red | orange | yellow | green | cyan | blue | purple | magenta | pink | olive | black | gray
  | white | brown | tan
deriving DecidableEq

namespace Palette

def all : List Palette :=
  [red, orange, yellow, green, cyan, blue, purple, magenta, pink, olive, black, gray, white, brown,
   tan]

theorem mem_all (p : Palette) : p ∈ all := by
  cases p <;> decide

def name : Palette → String
  | red => "red"
  | orange => "orange"
  | yellow => "yellow"
  | green => "green"
  | cyan => "cyan"
  | blue => "blue"
  | purple => "purple"
  | magenta => "magenta"
  | pink => "pink"
  | olive => "olive"
  | black => "black"
  | gray => "gray"
  | white => "white"
  | brown => "brown"
  | tan => "tan"

def rgb : Palette → UInt32
  | red => 0xFF0000
  | orange => 0xFFC800
  | yellow => 0xFFFF00
  | green => 0x00FF00
  | cyan => 0x00FFFF
  | blue => 0x0000FF
  | purple => 0x8000FF
  | magenta => 0xFF00FF
  | pink => 0xFFAFAF
  | olive => 0x808000
  | black => 0x000000
  | gray => 0x808080
  | white => 0xFFFFFF
  | brown => 0x804000
  | tan => 0xD2B48C

theorem rgb_lt (p : Palette) : p.rgb < 0x1000000 := by
  cases p <;> decide

def ofName? (name : String) : Option Palette :=
  all.find? (·.name == name)

theorem ofName?_name (p : Palette) : ofName? p.name = some p := by
  cases p <;> decide +kernel

end Palette

end TurtleGraphics
