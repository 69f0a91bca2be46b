import Widgetry.Json.Writer
import Widgetry.View.Markup
import Widgetry.View.Rendering

/-!
# Preview pages

An HTML page that shows a widget in a frame of its size and carries the context it is shown with.
-/

namespace Widgetry.Preview

def document (c : Context) : Json := .object [("data", c.data), ("settings", .object c.settings)]

def shieldChars : List Char → List Char
  | '<' :: '/' :: cs => '<' :: '\\' :: '/' :: shieldChars cs
  | c :: cs => c :: shieldChars cs
  | [] => []

def shield (s : String) : String := String.ofList (shieldChars s.toList)

def themeText (style : Style) (token : String) (fallback : Color) : String :=
  ((style.themeColor? .html token).getD fallback).toHex

def rules (style : Style) (size : Size) : List String :=
  ["body \x7b margin: 0; padding: 24px; background: #101014; font-family: system-ui, sans-serif; \x7d",
   ".widget \x7b width: " ++ showNumber size.width ++ "px; height: " ++ showNumber size.height
     ++ "px; overflow: hidden; box-sizing: border-box; border-radius: 16px; background: "
     ++ themeText style "widgetBackground" ⟨0x1C, 0x1B, 0x1F, 0xFF⟩ ++ "; color: "
     ++ themeText style "onSurface" ⟨0xE6, 0xE1, 0xE5, 0xFF⟩ ++ "; \x7d"]

def page (style : Style) (l : Layout) (size : Size) (c : Context) : Except Error String := do
  let (rendering, _) ← Renderer.render ⟨.html, style⟩ l size c
  return "<!DOCTYPE html>\n<html>\n<head>\n<meta charset=\"utf-8\">\n<title>"
    ++ Markup.escape l.displayName ++ " preview</title>\n<style>\n"
    ++ String.join ((rules style size).map (· ++ "\n"))
    ++ "</style>\n</head>\n<body>\n<div class=\"widget\" data-widget=\"" ++ Markup.escape l.name
    ++ "\">\n" ++ rendering.tree.markup .html rendering.root
    ++ "</div>\n<script type=\"application/json\" id=\"widget-context\">\n"
    ++ shield (document c).pretty ++ "\n</script>\n</body>\n</html>\n"

end Widgetry.Preview
