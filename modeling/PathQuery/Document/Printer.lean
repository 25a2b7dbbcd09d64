import PathQuery.Document.Basic
import PathQuery.Decimal.Layout
import PathQuery.Decimal.Reading
import PathQuery.Text.Quoted

/-!
# Text of documents

A document is written without blanks: lists in brackets, maps in braces with the keys quoted,
entries in their order.
-/

namespace PathQuery.Document

/-- a text between double quotes, with the characters below the blank by their code -/
def quoted (s : String) : List Char := Text.quoteChars (·.toNat < 0x20) s.toList

mutual
def chars : Document → List Char
  | null => "null".toList
  | bool value => (if value then "true" else "false").toList
  | integer n => Decimal.intChars n
  | float x => Decimal.Layout.document.chars x
  | text s => quoted s
  | list items => '[' :: itemChars items ++ [']']
  | map entries => '{' :: entryChars entries ++ ['}']

def itemChars : List Document → List Char
  | [] => []
  | [d] => d.chars
  | d :: rest => d.chars ++ ',' :: itemChars rest

def entryChars : List (String × Document) → List Char
  | [] => []
  | [(key, d)] => quoted key ++ ':' :: d.chars
  | (key, d) :: rest => quoted key ++ ':' :: d.chars ++ ',' :: entryChars rest
end

def toText (d : Document) : String := String.ofList d.chars

end PathQuery.Document
