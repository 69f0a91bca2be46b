import Widgetry.Element.Basic
import Widgetry.Expr.Elaboration

/-!
# Modifiers

The style properties of an element in the order in which its platform applies them.
-/

namespace Widgetry

/-- What a modifier carries: a native constant, nothing, or a computed value. -/
inductive ModifierValue (α : Type) where
  | native (text : String)
  | flag
  | computed (a : α)

structure Modifier (α : Type) where
  property : Property
  value : ModifierValue α

def ModifierValue.map {α β : Type} (f : α → β) : ModifierValue α → ModifierValue β
  | .native s => .native s
  | .flag => .flag
  | .computed a => .computed (f a)

namespace Modifier

/-- The style properties of a platform in the order in which they are applied: a Glance background
lies under the padding, SwiftUI modifiers wrap outward. -/
def order : Platform → List Property
  | .glance =>
      [.width, .fillWidth, .height, .fillHeight, .backgroundColor, .cornerRadius, .padding,
       .paddingHorizontal, .paddingVertical] ++ inner
  | .swiftUI =>
      [.padding, .paddingHorizontal, .paddingVertical, .width, .fillWidth, .height, .fillHeight,
       .backgroundColor, .cornerRadius] ++ inner
  | .nativeScript | .html =>
      [.width, .fillWidth, .height, .fillHeight, .padding, .paddingHorizontal, .paddingVertical,
       .backgroundColor, .cornerRadius] ++ inner
where
  inner : List Property :=
    [.visible, .alignment, .crossAlignment, .spacing, .color, .fontSize, .fontWeight, .textAlign,
     .maxLines]

def alignment (env : Env) (place : Location) (v : PropertyValue)
    (constant? : Alignment → Option String) : Except Error (ModifierValue Term) :=
  let keyword := v.string?.getD ""
  match (Alignment.ofKeyword? keyword).bind constant? with
  | some s => .ok (.native s)
  | none => .error (.unsupportedAlignment place keyword env.platform)

def weight (env : Env) (place : Location) (w : FontWeight) : Except Error (ModifierValue Term) :=
  match env.style.fontWeight? env.platform w with
  | some s => .ok (.native s)
  | none => .error (.config (.noWeight env.platform w place))

def fontWeight (env : Env) (place : Location) (v : PropertyValue) :
    Except Error (ModifierValue Term) :=
  match v with
  | .literal (.bool b) => weight env place (.ofBool b)
  | .literal (.string s) =>
      match FontWeight.ofKeyword? s with
      | some w => weight env place w
      | none => .error (.expressionType place (.unknownFontWeight s))
  | v => (Elaboration.property env .any place v).map .computed

/-- The modifier value of a property; a flag that is not set and a constant visibility of true make
none. -/
def value? (env : Env) (place : Location) (p : Property) (v : PropertyValue) :
    Except Error (Option (ModifierValue Term)) :=
  match p with
  | .fillWidth | .fillHeight => .ok (if v.bool? = some true then some .flag else none)
  | .visible =>
      if v.bool? = some true then .ok none
      else (Elaboration.property env .bool place v).map fun t => some (.computed t)
  | .alignment =>
      (alignment env place v (env.style.alignment? env.platform .horizontal)).map some
  | .crossAlignment =>
      (alignment env place v (env.style.alignment? env.platform .vertical)).map some
  | .textAlign => (alignment env place v (env.style.textAlign? env.platform)).map some
  | .fontWeight => (fontWeight env place v).map some
  | p => (Elaboration.property env p.valueType place v).map fun t => some (.computed t)

def buildFrom (env : Env) (e : Element) : List Property → Except Error (List (Modifier Term))
  | [] => .ok []
  | p :: ps =>
      match e.get? p with
      | none => buildFrom env e ps
      | some v => do
          let value ← value? env (e.place.field p.name) p v
          let rest ← buildFrom env e ps
          return (value.map (Modifier.mk p)).toList ++ rest

def build (env : Env) (e : Element) : Except Error (List (Modifier Term)) :=
  buildFrom env e (order env.platform)

section

variable {α β : Type}

def map (f : α → β) (m : Modifier α) : Modifier β := ⟨m.property, m.value.map f⟩

def get? (mods : List (Modifier α)) (p : Property) : Option (ModifierValue α) :=
  (mods.find? (·.property == p)).map Modifier.value

def computed? (mods : List (Modifier α)) (p : Property) : Option α :=
  match get? mods p with
  | some (.computed a) => some a
  | _ => none

def native? (mods : List (Modifier α)) (p : Property) : Option String :=
  match get? mods p with
  | some (.native s) => some s
  | _ => none

def hasFlag (mods : List (Modifier α)) (p : Property) : Bool :=
  match get? mods p with
  | some .flag => true
  | _ => false

end

end Modifier

end Widgetry
