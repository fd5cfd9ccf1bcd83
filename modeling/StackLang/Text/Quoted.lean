import StackLang.Text.GraphemeExtend
import StackLang.Text.Padded
import StackLang.Text.Unprintable

/-!
# Quoted text

Text between double quotes on one line. Quotes, backslashes and the common controls have an escape
of their own. A character that would not be seen in its own place (it cannot be shown, is drawn as
a blank, or is drawn onto the one before it) is written as its code point.
-/

namespace StackLang.Text

/-- A letter that stands for a missing part of a Hangul syllable and is drawn as a blank. These four
are the only letters that Unicode lets a display leave out. -/
def isHangulFiller (c : Char) : Bool :=
  c == '\u115f' || c == '\u1160' || c == '\u3164' || c == '\uffa0'

/-- A voiced sound mark of the halfwidth Katakana: it extends a grapheme, yet has a cell of its
own. -/
def isHalfwidthSoundMark (c : Char) : Bool :=
  c == '\uff9e' || c == '\uff9f'

/-- The character would not be seen in its own place. -/
def isHidden (c : Char) : Bool :=
  isUnprintable c || isHangulFiller c || extendsGrapheme c && !isHalfwidthSoundMark c

/-- How one character is written between quotes. -/
def escapeChar (c : Char) : String :=
  match c with
  | '\x00' => "\\0"
  | '\t' => "\\t"
  | '\r' => "\\r"
  | '\n' => "\\n"
  | '"' => "\\\""
  | '\\' => "\\\\"
  | _ => if isHidden c then "\\u\x7b" ++ hex 1 c.toNat ++ "\x7d" else c.toString

/-- The text in double quotes. -/
def quoted (s : String) : String :=
  "\"" ++ String.join (s.toList.map escapeChar) ++ "\""

end StackLang.Text
