import SealedChat.Node

namespace SealedChat.Node

def markupOfAttributes (attributes : Attributes) : String :=
  attributes.entries.foldl (fun text entry => text ++ s!" {entry.1}=\"{entry.2}\"") ""

mutual

def markup : Node → String
  | ⟨description, attributes, content⟩ =>
    let start := s!"<{description}{markupOfAttributes attributes}"
    match content with
    | .empty => start ++ "/>"
    | .text text => s!"{start}>{text}</{description}>"
    | .bytes bytes => s!"{start}>{bytes.hex}</{description}>"
    | .children nodes => s!"{start}>{markupOfNodes nodes}</{description}>"
termination_by structural node => node

def markupOfNodes : List Node → String
  | [] => ""
  | node :: nodes => markup node ++ markupOfNodes nodes
termination_by structural nodes => nodes

end

instance : ToString Node := ⟨markup⟩

end SealedChat.Node
