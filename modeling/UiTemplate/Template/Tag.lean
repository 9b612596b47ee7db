import UiTemplate.Platform
import UiTemplate.Template.Node

/-!
# Tags of the host

Which tags stand for something that the platform itself offers. All other tags are components, but
for the one that only groups its children.
-/

namespace UiTemplate

/-- The tags that every platform offers. -/
def commonTags : List String :=
  ["view", "text", "image", "button", "input", "textarea", "scroll-view", "swiper", "swiper-item",
    "navigator", "icon", "progress", "checkbox", "checkbox-group", "radio", "radio-group", "switch",
    "slider", "picker", "picker-view", "picker-view-column", "label", "form", "video", "map",
    "canvas", "web-view", "rich-text", "block", "list-view", "list-item", "sticky-header",
    "sticky-section", "movable-area", "movable-view", "cover-view", "cover-image"]

/-- The further tags of the web. -/
def webTags : List String :=
  ["div", "span", "p", "a", "ul", "ol", "li", "img", "br", "hr", "h1", "h2", "h3", "h4", "h5", "h6",
    "section", "header", "footer", "main", "nav", "article", "aside", "table", "thead", "tbody",
    "tr", "td", "th", "em", "strong", "b", "i", "small", "pre", "code", "select", "option", "svg",
    "path"]

/-- Whether a platform offers a tag. -/
def isNativeTag (tag : String) (platform : Platform) : Bool :=
  commonTags.contains tag || (platform == .web && webTags.contains tag)

/-- What an element of a tag stands for. -/
def ElementKind.ofTag (tag : String) (platform : Platform) : ElementKind :=
  if tag = "template" then .fragment
  else if isNativeTag tag platform then .native
  else .component

end UiTemplate
