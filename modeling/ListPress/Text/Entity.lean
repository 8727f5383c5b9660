/-! # Escaping text for markup -/

namespace ListPress

def entity : Char → List Char
  | '&' => ['&', 'a', 'm', 'p', ';']
  | '<' => ['&', 'l', 't', ';']
  | '>' => ['&', 'g', 't', ';']
  | '"' => ['&', 'q', 'u', 'o', 't', ';']
  | '\'' => ['&', '#', '3', '9', ';']
  | c => [c]

/-- Replace the five characters that mean something in markup by entities. -/
def escapeHtml (text : String) : String := String.ofList (text.toList.flatMap entity)

end ListPress
