import SealedChat.Bytes
import SealedChat.Node.Attributes

namespace SealedChat

mutual

inductive Node where
  | mk (description : String) (attributes : Attributes) (content : Content)

inductive Content where
  | empty
  | text (text : String)
  | bytes (bytes : Bytes)
  | children (nodes : List Node)

end

namespace Node

mutual

def decEq : (a b : Node) → Decidable (a = b)
  | ⟨d, a, c⟩, ⟨d', a', c'⟩ =>
    match instDecidableEqString d d', (inferInstance : DecidableEq Attributes) a a',
        decEqContent c c' with
    | isTrue hd, isTrue ha, isTrue hc => isTrue (by rw [hd, ha, hc])
    | isFalse h, _, _ => isFalse fun e => h (Node.mk.inj e).1
    | _, isFalse h, _ => isFalse fun e => h (Node.mk.inj e).2.1
    | _, _, isFalse h => isFalse fun e => h (Node.mk.inj e).2.2
termination_by structural a => a

def decEqContent : (a b : Content) → Decidable (a = b)
  | .empty, .empty => isTrue rfl
  | .text a, .text b => if h : a = b then isTrue (by rw [h]) else isFalse (by simpa using h)
  | .bytes a, .bytes b => if h : a = b then isTrue (by rw [h]) else isFalse (by simpa using h)
  | .children a, .children b =>
    match decEqNodes a b with
    | isTrue h => isTrue (by rw [h])
    | isFalse h => isFalse (by simpa using h)
  | .empty, .text _ | .empty, .bytes _ | .empty, .children _ => isFalse nofun
  | .text _, .empty | .text _, .bytes _ | .text _, .children _ => isFalse nofun
  | .bytes _, .empty | .bytes _, .text _ | .bytes _, .children _ => isFalse nofun
  | .children _, .empty | .children _, .text _ | .children _, .bytes _ => isFalse nofun
termination_by structural a => a

def decEqNodes : (a b : List Node) → Decidable (a = b)
  | [], [] => isTrue rfl
  | [], _ :: _ => isFalse nofun
  | _ :: _, [] => isFalse nofun
  | a :: as, b :: bs =>
    match decEq a b, decEqNodes as bs with
    | isTrue h, isTrue hs => isTrue (by rw [h, hs])
    | isFalse h, _ => isFalse fun e => h (List.cons.inj e).1
    | _, isFalse h => isFalse fun e => h (List.cons.inj e).2
termination_by structural a => a

end

instance : DecidableEq Node := decEq

def description : Node → String
  | ⟨description, _, _⟩ => description

def attributes : Node → Attributes
  | ⟨_, attributes, _⟩ => attributes

def content : Node → Content
  | ⟨_, _, content⟩ => content

def ofDescription (description : String) : Node :=
  ⟨description, ∅, .empty⟩

instance : Inhabited Node := ⟨ofDescription ""⟩

def withAttribute (node : Node) (key value : String) : Node :=
  ⟨node.description, node.attributes.insert key value, node.content⟩

def withContent (node : Node) (content : Content) : Node :=
  ⟨node.description, node.attributes, content⟩

def withChildren (node : Node) (children : List Node) : Node :=
  node.withContent (.children children)

def attribute? (node : Node) (key : String) : Option String :=
  node.attributes.get? key

def children (node : Node) : List Node :=
  match node.content with
  | .children nodes => nodes
  | _ => []

def findChild? (node : Node) (description : String) : Option Node :=
  node.children.find? fun child => child.description == description

def bytes? (node : Node) : Option Bytes :=
  match node.content with
  | .bytes bytes => some bytes
  | _ => none

def text? (node : Node) : Option String :=
  match node.content with
  | .text text => some text
  | _ => none

mutual

def height : Node → Nat
  | ⟨_, _, content⟩ => heightOfContent content + 1
termination_by structural node => node

def heightOfContent : Content → Nat
  | .children nodes => heightOfNodes nodes
  | .empty | .text _ | .bytes _ => 0
termination_by structural content => content

def heightOfNodes : List Node → Nat
  | [] => 0
  | node :: nodes => max (height node) (heightOfNodes nodes)
termination_by structural nodes => nodes

end

end Node

end SealedChat
