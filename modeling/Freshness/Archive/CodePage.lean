import Freshness.Text.Utf8

/-!
# Code page 437

The letters that bytes stand for in names that are not marked as UTF-8.
-/

namespace Freshness
namespace Archive

/-- The letters of the bytes from 128 on. -/
def upperHalf : List Char :=
  ("ÇüéâäàåçêëèïîìÄÅÉæÆôöòûùÿÖÜ¢£¥₧ƒáíóúñÑªº¿⌐¬½¼¡«»"
    ++ "░▒▓│┤╡╢╖╕╣║╗╝╜╛┐└┴┬├─┼╞╟╚╔╩╦╠═╬╧╨╤╥╙╘╒╓╫╪┘┌█▄▌▐▀"
    ++ "αßΓπΣσµτΦΘΩδ∞φε∩≡±≥≤⌠⌡÷≈°∙·√ⁿ²■\u00A0").toList

/-- The letter that a byte stands for. -/
def codePageLetter (b : UInt8) : Char :=
  if b < 128 then Char.ofNat b.toNat else (upperHalf[b.toNat - 128]?).getD '\uFFFD'

/-- The text that bytes stand for. -/
def decodeCodePage (bytes : Bytes) : String := String.ofList (bytes.map codePageLetter)

end Archive
end Freshness
